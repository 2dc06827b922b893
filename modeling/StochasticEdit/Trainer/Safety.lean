import StochasticEdit.Trainer.Restart
import StochasticEdit.Wfst.Relation
import StochasticEdit.Wfst.Filter

/-! The indices of the E-step. `calculate_observed_counts` reads the first entries of
`alpha` and `beta` whether or not the lattice has a state, and it takes a lattice arc on
which the machine stands still for the machine arc -1. Both depend on the training
data only: an exemplar that the machine cannot relate has an empty lattice, and an
empty word in an exemplar leaves the machine where it is. -/

namespace StochasticEdit.Trainer

open Wfst

variable {n : ℕ} {add : EReal → EReal → EReal} {comp : Composer} {debugMode : Bool}
  {F : VectorFst LogWeight} {exemplar : VectorFst LogWeight × VectorFst LogWeight}

/-- The calls of `calculate_observed_counts` of an E-step: each is defined, and it leaves
the counts as they are for a lattice without accepting paths. -/
def SafeCounts (add : EReal → EReal → EReal) (comp : Composer) : TrainerLocal n →
    List ((VectorFst LogWeight × VectorFst LogWeight) × VectorFst FeatureWeight) → Prop
  | _, [] => True
  | t, (exemplarLog, exemplarFeature) :: rest =>
    let finalLog := logLattice comp t.fst exemplarLog
    ∃ t', t.calculateObservedCounts add exemplarFeature finalLog finalLog.forwardDistances
        finalLog.backwardDistances = some t' ∧
      ((∀ p, ¬ finalLog.Accepts p) → t'.observedCounts = t.observedCounts) ∧
        SafeCounts add comp t' rest

def TrainerLocal.SafeEStep (add : EReal → EReal → EReal) (comp : Composer)
    (t : TrainerLocal n) : Prop :=
  ∃ counts, fillNegDblMax t.numArcs t.observedCounts = some counts ∧
    SafeCounts add comp ({ t with observedCounts := counts } : TrainerLocal n)
      (t.dataFormatted.zip t.dataFormattedFeatures)

/-! ### The indices of the loops -/

theorem readAt_isSome_iff {α : Type*} {v : List α} {i : ℤ} :
    (readAt v i).isSome ↔ 0 ≤ i ∧ i < v.length := by
  unfold readAt
  by_cases hi : 0 ≤ i
  · rw [if_pos hi, Option.isSome_iff_ne_none, Ne, List.getElem?_eq_none_iff]
    omega
  · simp [hi]

/-- One state: every lattice arc needs the entries of its end points and a machine arc. -/
theorem countPass_isSome_iff {mapper : ℕ → ℤ} {alpha beta : List LogWeight} {Z : LogWeight}
    {state e : ℕ} {counts : List EReal} {arcs : List (Arc LogWeight)} :
    (countPass add mapper alpha beta Z state e counts arcs).isSome ↔ ∀ k a, arcs[k]? = some a →
      (alpha[state]?).isSome ∧ (beta[a.nextstate]?).isSome ∧
        0 ≤ mapper (e + k) ∧ mapper (e + k) < counts.length := by
  induction arcs generalizing e counts with
  | nil => simp [countPass]
  | cons a arcs ih =>
    have hsplit (P : ℕ → Arc LogWeight → Prop) : (∀ k b, (a :: arcs)[k]? = some b → P k b) ↔
        P 0 a ∧ ∀ k b, arcs[k]? = some b → P (k + 1) b := by
      constructor
      · exact fun h => ⟨h 0 a rfl, fun k b hb => h (k + 1) b (by simpa using hb)⟩
      · rintro ⟨h0, hs⟩ k b hb
        rcases k with _ | k
        · obtain rfl := Option.some.inj hb
          exact h0
        · exact hs k b (by simpa using hb)
    rw [hsplit, Nat.add_zero, ← readAt_isSome_iff]
    rcases hx : alpha[state]? with _ | x
    · simp [countPass, hx]
    rcases hy : beta[a.nextstate]? with _ | y
    · simp [countPass, hx, hy]
    rcases hz : readAt counts (mapper e) with _ | z
    · simp [countPass, hx, hy, hz]
    obtain ⟨h0, hlt⟩ := lt_of_readAt hz
    have hwrite (v : EReal) : writeAt counts (mapper e) v = some (counts.set (mapper e).toNat v) :=
      writeAt_of_lt h0 (by omega)
    simp only [countPass, hx, hy, hz, hwrite, Option.bind_eq_bind, Option.bind_some, ih,
      List.length_set, Option.isSome_some, true_and, Nat.add_assoc, Nat.add_comm 1]

/-- The id that is decoded for a lattice arc. -/
noncomputable def decoded (f : Origin → FeatureWeight) (a : Arc Origin) : ℤ :=
  roundExpNeg (value (f a.weight).value2) - 1

section Pattern
variable {f g : Origin → FeatureWeight} {f' g' : Origin → LogWeight} {alpha beta : List LogWeight}

/-- One state of two lattices with the states and arcs of one pattern. -/
theorem countPass_pattern (g : Origin → FeatureWeight) (g' : Origin → LogWeight) (Z : LogWeight)
    (q e : ℕ) (counts : List EReal) (u : State Origin) :
    (countPass add (mapperPass e (fun _ => 0) (u.map f g).arcs) alpha beta Z q e counts
      (u.map f' g').arcs).isSome ↔ ∀ (k : ℕ) (a : Arc Origin), u.arcs[k]? = some a →
        (alpha[q]?).isSome ∧ (beta[a.nextstate]?).isSome ∧
          0 ≤ decoded f a ∧ decoded f a < counts.length := by
  rw [countPass_isSome_iff]
  have hmapper {k : ℕ} {a : Arc Origin} (ha : u.arcs[k]? = some a) :
      mapperPass e (fun _ => 0) (u.map f g).arcs (e + k) = decoded f a := by
    rw [mapperPass_eq (a := a.map f) _ (by simp [State.map, ha])]
    rfl
  constructor
  · intro h k a ha
    have hk := h k (a.map f') (by simp [State.map, ha])
    rwa [hmapper ha] at hk
  · intro h k b hb
    obtain ⟨a, ha, rfl⟩ := Option.map_eq_some_iff.mp ((List.getElem?_map ..).symm.trans hb)
    rw [hmapper ha]
    exact h k a ha

/-- All states. -/
theorem countStates_pattern {fstLog : VectorFst LogWeight} (g : Origin → FeatureWeight)
    (Z : LogWeight) (q e : ℕ) (counts : List EReal) {us : List (State Origin)}
    (hlog : ∀ j u, us[j]? = some u → fstLog.states[q + j]? = some (u.map f' g')) :
    (countStates add fstLog alpha beta Z q e counts (us.map (State.map f g))).isSome ↔
      ∀ (j : ℕ) (u : State Origin) (k : ℕ) (a : Arc Origin), us[j]? = some u → u.arcs[k]? = some a →
        (alpha[q + j]?).isSome ∧ (beta[a.nextstate]?).isSome ∧
          0 ≤ decoded f a ∧ decoded f a < counts.length := by
  induction us generalizing q e counts with
  | nil => simp [countStates]
  | cons u us ih =>
    have hstate : fstLog.states[q]? = some (u.map f' g') := hlog 0 u rfl
    have hsplit (P : ℕ → State Origin → ℕ → Arc Origin → Prop) :
        (∀ (j : ℕ) (v : State Origin) (k : ℕ) (a : Arc Origin), (u :: us)[j]? = some v →
            v.arcs[k]? = some a → P j v k a) ↔
          (∀ (k : ℕ) (a : Arc Origin), u.arcs[k]? = some a → P 0 u k a) ∧
            ∀ (j : ℕ) (v : State Origin) (k : ℕ) (a : Arc Origin), us[j]? = some v →
              v.arcs[k]? = some a → P (j + 1) v k a := by
      constructor
      · exact fun h =>
          ⟨fun k a => h 0 u k a rfl, fun j v k a hv => h (j + 1) v k a (by simpa using hv)⟩
      · rintro ⟨h0, hs⟩ j v k a hv
        rcases j with _ | j
        · obtain rfl := Option.some.inj hv
          exact h0 k a
        · exact hs j v k a (by simpa using hv)
    rw [hsplit, Nat.add_zero, ← countPass_pattern g g' Z q e counts u]
    simp only [List.map_cons, countStates, hstate, Option.bind_eq_bind, Option.bind_some]
    rcases hpass : countPass add (mapperPass e (fun _ => 0) (u.map f g).arcs) alpha beta
      Z q e counts
        (u.map f' g').arcs with _ | counts₁
    · simp
    · rw [Option.bind_some, ih (q + 1) _ counts₁ fun j v hv => by
        rw [Nat.add_assoc, Nat.add_comm 1]
        exact hlog (j + 1) v (by simpa using hv)]
      simp only [length_countPass hpass, Option.isSome_some, true_and, Nat.add_assoc,
        Nat.add_comm 1]

/-- `calculate_observed_counts` on two lattices with the states and arcs of `S`. -/
theorem calculateObservedCounts_isSome_iff (t : TrainerLocal n) {S : VectorFst Origin}
    {fst : VectorFst FeatureWeight} {fstLog : VectorFst LogWeight} (hfst : fst = S.map f g)
    (hlog : fstLog = S.map f' g') :
    (t.calculateObservedCounts add fst fstLog alpha beta).isSome ↔
      (alpha[0]?).isSome ∧ (beta[0]?).isSome ∧ ∀ e q a, S.arc? e = some (q, a) →
        (alpha[q]?).isSome ∧ (beta[a.nextstate]?).isSome ∧
          0 ≤ decoded f a ∧ decoded f a < t.observedCounts.length := by
  subst hfst hlog
  have hstates : ∀ j u, S.states[j]? = some u →
      (S.map f' g').states[0 + j]? = some (u.map f' g') := by
    intro j u hu
    rw [Nat.zero_add]
    show (S.states.map (State.map f' g'))[j]? = _
    rw [List.getElem?_map, hu]
    rfl
  have harcs : (∀ e q a, S.arc? e = some (q, a) → (alpha[q]?).isSome ∧ (beta[a.nextstate]?).isSome ∧
      0 ≤ decoded f a ∧ decoded f a < t.observedCounts.length) ↔
        ∀ (j : ℕ) (u : State Origin) (k : ℕ) (a : Arc Origin), S.states[j]? = some u →
          u.arcs[k]? = some a → (alpha[0 + j]?).isSome ∧
          (beta[a.nextstate]?).isSome ∧ 0 ≤ decoded f a ∧
            decoded f a < t.observedCounts.length := by
    simp only [Nat.zero_add]
    constructor
    · exact fun h j u k a hu ha => h _ j a (VectorFst.arc?_eq_some_iff.mpr ⟨u, k, hu, ha, rfl⟩)
    · intro h e q a he
      obtain ⟨u, k, hu, ha, -⟩ := VectorFst.arc?_eq_some_iff.mp he
      exact h q u k a hu ha
  rcases ha : alpha[0]? with _ | a₀
  · simp [TrainerLocal.calculateObservedCounts, ha]
  rcases hb : beta[0]? with _ | b₀
  · simp [TrainerLocal.calculateObservedCounts, ha, hb]
  rw [harcs, ← countStates_pattern g (a₀ * b₀) 0 0 t.observedCounts hstates]
  simp only [TrainerLocal.calculateObservedCounts, ha, hb, Option.bind_eq_bind, Option.bind_some,
    Option.isSome_some, true_and]
  show (Option.bind (countStates add (S.map f' g') alpha beta (a₀ * b₀) 0 0 t.observedCounts
    (S.states.map (State.map f g))) _).isSome = true ↔ _
  cases countStates add (S.map f' g') alpha beta (a₀ * b₀) 0 0 t.observedCounts
    (S.states.map (State.map f g)) <;> rfl

end Pattern

/-! ### Exemplars that the machine can relate -/

/-- Accepting paths of the acceptors and of the machine that carry the same strings. -/
def Related (F : VectorFst LogWeight) (exemplar : VectorFst LogWeight × VectorFst LogWeight)
    (px pf py : List ℕ) : Prop :=
  exemplar.1.Accepts px ∧ F.Accepts pf ∧ exemplar.2.Accepts py ∧
    exemplar.1.ostring px = F.istring pf ∧ F.ostring pf = exemplar.2.istring py

/-- The machine relates the exemplar, and no such paths have an empty word of it. -/
def Usable (F : VectorFst LogWeight)
    (exemplar : VectorFst LogWeight × VectorFst LogWeight) : Prop :=
  (∃ px pf py, Related F exemplar px pf py) ∧ ∀ px pf py, Related F exemplar px pf py →
    (∀ x ∈ px, exemplar.1.olabel? x ≠ some 0) ∧ ∀ y ∈ py, exemplar.2.ilabel? y ≠ some 0

/-- The two compositions of an exemplar with the machine, and their paths. -/
structure ComposedPaths (comp : Composer) (F : VectorFst LogWeight)
    (exemplar : VectorFst LogWeight × VectorFst LogWeight) :
    Prop extends Composed comp F exemplar where
  medialPaths : IsComposition exemplar.1.shape F.shape (medialOrigins comp F exemplar.1)
  latticePaths : IsComposition (medialOrigins comp F exemplar.1).shape exemplar.2.shape
    (latticeOrigins comp F exemplar)

section Paths
variable (h : ComposedPaths comp F exemplar)
include h

/-- The paths behind an accepting path of a lattice. -/
theorem ComposedPaths.related {p : List ℕ} (hp : (latticeOrigins comp F exemplar).Accepts p) :
    Related F exemplar
      ((medialOrigins comp F exemplar.1).leftPath ((latticeOrigins comp F exemplar).leftPath p))
      ((medialOrigins comp F exemplar.1).rightPath ((latticeOrigins comp F exemplar).leftPath p))
      ((latticeOrigins comp F exemplar).rightPath p) := by
  obtain ⟨q, hq⟩ := hp
  obtain ⟨o, ho⟩ := Option.isSome_iff_exists.mp hq.choose_spec.2.2
  obtain ⟨q₁, q₂, rfl⟩ := h.latticePaths.final q o ho
  obtain ⟨hm, hy⟩ := h.latticePaths.sound p q q₁ q₂ hq ho
  have hm' := (VectorFst.acceptsAt_map _ _ _).mp hm
  obtain ⟨o', ho'⟩ := Option.isSome_iff_exists.mp hm'.choose_spec.2.2
  obtain ⟨r₁, r₂, rfl⟩ := h.medialPaths.final q₁ o' ho'
  obtain ⟨hx, hf⟩ := h.medialPaths.sound _ q₁ r₁ r₂ hm' ho'
  have hshared := VectorFst.ostring_leftPath h.latticePaths.matched
    fun e he => VectorFst.exists_arc_of_mem hq he
  have hshared' := VectorFst.ostring_leftPath h.medialPaths.matched
    fun e he => VectorFst.exists_arc_of_mem hm' he
  have hmachine := VectorFst.ostring_rightPath h.medialPaths.matched
    fun e he => VectorFst.exists_arc_of_mem hm' he
  simp only [VectorFst.shape, VectorFst.istring_map,
    VectorFst.ostring_map] at hshared hshared' hmachine
  exact ⟨⟨r₁, (VectorFst.acceptsAt_map _ _ _).mp hx⟩, ⟨r₂, (VectorFst.acceptsAt_map _ _ _).mp hf⟩,
    ⟨q₂, (VectorFst.acceptsAt_map _ _ _).mp hy⟩, hshared', hmachine.trans hshared⟩

/-- Every related triple of paths is behind an accepting path of the lattice. -/
theorem ComposedPaths.exists_accepts {px pf py : List ℕ} (hrel : Related F exemplar px pf py) :
    ∃ p, (latticeOrigins comp F exemplar).Accepts p ∧
      (medialOrigins comp F exemplar.1).leftPath
        ((latticeOrigins comp F exemplar).leftPath p) = px ∧
      (latticeOrigins comp F exemplar).rightPath p = py := by
  obtain ⟨⟨q₁, hx⟩, ⟨q₂, hf⟩, ⟨q₃, hy⟩, hin, hout⟩ := hrel
  obtain ⟨pm, qm, hpm, -, rfl, rfl⟩ := h.medialPaths.complete px pf q₁ q₂
    ((VectorFst.acceptsAt_map _ _ _).mpr hx) ((VectorFst.acceptsAt_map _ _ _).mpr hf)
    (by simpa only [VectorFst.shape, VectorFst.istring_map, VectorFst.ostring_map] using hin)
  have hmachine := VectorFst.ostring_rightPath h.medialPaths.matched
    fun e he => VectorFst.exists_arc_of_mem hpm he
  simp only [VectorFst.shape, VectorFst.ostring_map] at hmachine
  obtain ⟨p, q, hp, -, rfl, rfl⟩ := h.latticePaths.complete pm py qm q₃
    ((VectorFst.acceptsAt_map _ _ _).mpr hpm) ((VectorFst.acceptsAt_map _ _ _).mpr hy)
    (by
      simp only [VectorFst.shape, VectorFst.istring_map, VectorFst.ostring_map]
      exact hmachine.symm.trans hout)
  exact ⟨p, ⟨q, hp⟩, rfl, rfl⟩

/-- On a path of the lattice the machine stands still exactly where one of the acceptors
has an empty word. -/
theorem ComposedPaths.exists_still_iff {p : List ℕ}
    (hp : (latticeOrigins comp F exemplar).Accepts p) :
    (∃ e ∈ p, traversed? comp F exemplar e = none) ↔
      (∃ x ∈ (medialOrigins comp F exemplar.1).leftPath
          ((latticeOrigins comp F exemplar).leftPath p), exemplar.1.olabel? x = some 0) ∨
      ∃ y ∈ (latticeOrigins comp F exemplar).rightPath p, exemplar.2.ilabel? y = some 0 := by
  obtain ⟨q, hq⟩ := hp
  have hx (x : ℕ) : exemplar.1.shape.olabel? x = exemplar.1.olabel? x :=
    VectorFst.olabel?_map _ _ _ x
  have hy (y : ℕ) : exemplar.2.shape.ilabel? y = exemplar.2.ilabel? y :=
    VectorFst.ilabel?_map _ _ _ y
  constructor
  · rintro ⟨e, he, hnone⟩
    obtain ⟨r, a, ha⟩ := VectorFst.exists_arc_of_mem hq he
    have hmatch := h.lattice.matched e r a ha
    rw [traversed?, ha, Option.bind_some] at hnone
    rcases hm : a.weight.1 with _ | m
    · obtain ⟨y, hy'⟩ := Option.ne_none_iff_exists'.mp fun h2 => hmatch.moves (Prod.ext hm h2)
      have h0 := (hmatch.left_eq_none_iff hy').mp hm
      rw [hy] at h0
      exact .inr ⟨y, mem_rightPath.mpr ⟨e, he, r, a, ha, hy'⟩, h0⟩
    · obtain ⟨r', b, hb, hmatch'⟩ := h.exists_medial ha hm
      rw [hm, Option.bind_some, hb, Option.bind_some] at hnone
      obtain ⟨x, hx'⟩ := Option.ne_none_iff_exists'.mp fun h1 => hmatch'.moves (Prod.ext h1 hnone)
      have h0 := (hmatch'.right_eq_none_iff hx').mp hnone
      rw [hx] at h0
      exact .inl
        ⟨x, mem_leftPath.mpr ⟨m, mem_leftPath.mpr ⟨e, he, r, a, ha, hm⟩, r', b, hb, hx'⟩, h0⟩
  · rintro (⟨x, hmem, h0⟩ | ⟨y, hmem, h0⟩)
    · obtain ⟨m, hm, r', b, hb, hx'⟩ := mem_leftPath.mp hmem
      obtain ⟨e, he, r, a, ha, hm'⟩ := mem_leftPath.mp hm
      refine ⟨e, he, ?_⟩
      rw [traversed?, ha, Option.bind_some, hm', Option.bind_some, hb, Option.bind_some]
      exact ((h.medial.matched m r' b hb).right_eq_none_iff hx').mpr ((hx x).trans h0)
    · obtain ⟨e, he, r, a, ha, hy'⟩ := mem_rightPath.mp hmem
      refine ⟨e, he, ?_⟩
      rw [traversed?, ha, Option.bind_some,
        ((h.lattice.matched e r a ha).left_eq_none_iff hy').mpr ((hy y).trans h0)]
      rfl

/-- A usable exemplar is one with a nonempty lattice on all of whose arcs the machine
moves. -/
theorem ComposedPaths.usable_iff : Usable F exemplar ↔
    (latticeOrigins comp F exemplar).states ≠ [] ∧
    ∀ e q a, (latticeOrigins comp F exemplar).arc? e = some (q, a) →
      (traversed? comp F exemplar e).isSome := by
  rw [h.lattice.states_ne_nil_iff]
  constructor
  · rintro ⟨⟨px, pf, py, hrel⟩, hall⟩
    obtain ⟨p, hp, -⟩ := h.exists_accepts hrel
    refine ⟨⟨p, hp⟩, fun e q a ha => ?_⟩
    obtain ⟨p', hp', he⟩ := h.lattice.exists_accepts ha
    obtain ⟨hx, hy⟩ := hall _ _ _ (h.related hp')
    by_contra hnone
    rcases (h.exists_still_iff hp').mp
      ⟨e, he, by simpa using hnone⟩ with ⟨x, hmem, h0⟩ | ⟨y, hmem, h0⟩
    · exact hx x hmem h0
    · exact hy y hmem h0
  · rintro ⟨⟨p, hp⟩, hall⟩
    refine ⟨⟨_, _, _, h.related hp⟩, fun px pf py hrel => ?_⟩
    obtain ⟨p', hp', rfl, rfl⟩ := h.exists_accepts hrel
    have hmoves : ¬ ∃ e ∈ p', traversed? comp F exemplar e = none := by
      rintro ⟨e, he, hnone⟩
      obtain ⟨q, hq⟩ := hp'
      obtain ⟨r, a, ha⟩ := VectorFst.exists_arc_of_mem hq he
      have hsome := hall e r a ha
      rw [hnone] at hsome
      contradiction
    rw [h.exists_still_iff hp', not_or] at hmoves
    exact ⟨fun x hx h0 => hmoves.1 ⟨x, hx, h0⟩, fun y hy h0 => hmoves.2 ⟨y, hy, h0⟩⟩

end Paths

/-! ### The E-steps of a training -/

theorem Composed.traversed?_lt (h : Composed comp F exemplar) {e f : ℕ}
    (hf : traversed? comp F exemplar e = some f) : f < F.numArcs := by
  simp only [traversed?, Option.bind_eq_some_iff] at hf
  obtain ⟨m, -, ⟨r, b⟩, hb, hf⟩ := hf
  exact medial_traversed_lt h.medial hb hf

/-- A call of `calculate_observed_counts` is defined exactly if the lattice has a state
and the machine moves on every arc. -/
theorem Composed.calculateObservedCounts_isSome_iff (h : Composed comp F exemplar)
    (t : TrainerLocal n) (hfst : t.fst.shape = F.shape)
    (hlen : t.observedCounts.length = F.numArcs) :
    (t.calculateObservedCounts add (featureLattice comp (mapToFeatureArcs F false) exemplar)
        (logLattice comp t.fst exemplar) (logLattice comp t.fst exemplar).forwardDistances
        (logLattice comp t.fst exemplar).backwardDistances).isSome ↔
      (latticeOrigins comp F exemplar).states ≠ [] ∧
        ∀ e q a, (latticeOrigins comp F exemplar).arc? e = some (q, a) →
          (traversed? comp F exemplar e).isSome := by
  have hlog := @logLattice_of_shape comp F exemplar t.fst hfst
  rw [Trainer.calculateObservedCounts_isSome_iff t (featureLattice_eq h) hlog]
  by_cases hnil : (latticeOrigins comp F exemplar).states = []
  · have hstart : (logLattice comp t.fst exemplar).start = none := by
      rw [hlog, VectorFst.map_start, h.lattice.no_start hnil]
    simp [VectorFst.forwardDistances, hstart, hnil]
  · have hstart : (logLattice comp t.fst exemplar).start = some 0 := by
      rw [hlog, VectorFst.map_start, h.lattice.start hnil]
    have hnum : (logLattice comp t.fst exemplar).numStates =
        (latticeOrigins comp F exemplar).numStates := by
      rw [hlog, VectorFst.numStates_map]
    have halpha {q : ℕ} (hq : q < (latticeOrigins comp F exemplar).numStates) :
        ((logLattice comp t.fst exemplar).forwardDistances[q]?).isSome := by
      rw [VectorFst.getElem?_forwardDistances hstart (hnum ▸ hq), Option.isSome_some]
    have hbeta {q : ℕ} (hq : q < (latticeOrigins comp F exemplar).numStates) :
        ((logLattice comp t.fst exemplar).backwardDistances[q]?).isSome := by
      rw [VectorFst.getElem?_backwardDistances hstart (hnum ▸ hq), Option.isSome_some]
    have hpos : 0 < (latticeOrigins comp F exemplar).numStates := List.length_pos_iff.mpr hnil
    simp only [halpha hpos, hbeta hpos, hnil, ne_eq, not_false_eq_true, true_and]
    refine forall_congr' fun e => forall_congr' fun q => forall_congr' fun a => ?_
    refine imp_congr_right fun ha => ?_
    obtain ⟨s, k, hs, -, -⟩ := VectorFst.arc?_eq_some_iff.mp ha
    have hq : q < (latticeOrigins comp F exemplar).numStates := (List.getElem?_eq_some_iff.mp hs).1
    rw [hlen, decoded, h.decode ha]
    simp only [halpha hq, hbeta (h.lattice.target e q a ha), true_and]
    rcases htrav : traversed? comp F exemplar e with _ | f
    · simp
    · have hlt := h.traversed?_lt htrav
      simpa using hlt

theorem calculateObservedCounts_kept {t t' : TrainerLocal n} {fst : VectorFst FeatureWeight}
    {fstLog : VectorFst LogWeight} {alpha beta : List LogWeight}
    (h : t.calculateObservedCounts add fst fstLog alpha beta = some t') :
    t'.fst = t.fst ∧ t'.observedCounts.length = t.observedCounts.length := by
  simp only [TrainerLocal.calculateObservedCounts, Option.bind_eq_bind,
    Option.bind_eq_some_iff] at h
  obtain ⟨a, -, b, -, counts, hcounts, h⟩ := h
  obtain rfl := Option.some.inj h
  exact ⟨rfl, length_countStates hcounts⟩

/-- The calls of one E-step are safe exactly if every exemplar is usable. -/
theorem safeCounts_iff (exemplars : List (VectorFst LogWeight × VectorFst LogWeight))
    (hexemplars : ∀ exemplar ∈ exemplars, ComposedPaths comp F exemplar) (t : TrainerLocal n)
    (hfst : t.fst.shape = F.shape) (hlen : t.observedCounts.length = F.numArcs) :
    SafeCounts add comp t
        (exemplars.zip (exemplars.map (featureLattice comp (mapToFeatureArcs F false)))) ↔
      ∀ exemplar ∈ exemplars, Usable F exemplar := by
  induction exemplars generalizing t with
  | nil => simp [SafeCounts]
  | cons exemplar exemplars ih =>
    have hpaths : ComposedPaths comp F exemplar := hexemplars exemplar (by simp)
    have hcall := @Composed.calculateObservedCounts_isSome_iff _ add
      _ _ _ hpaths.toComposed t hfst hlen
    rw [← hpaths.usable_iff] at hcall
    have hnext {t' : TrainerLocal n} (ht' : t.calculateObservedCounts add
        (featureLattice comp (mapToFeatureArcs F false) exemplar) (logLattice comp t.fst exemplar)
        (logLattice comp t.fst exemplar).forwardDistances
        (logLattice comp t.fst exemplar).backwardDistances = some t') :=
      ih (fun x hx => hexemplars x (by simp [hx])) t'
        ((congrArg VectorFst.shape (calculateObservedCounts_kept ht').1).trans hfst)
        ((calculateObservedCounts_kept ht').2.trans hlen)
    rw [List.map_cons, List.zip_cons_cons, SafeCounts, List.forall_mem_cons]
    constructor
    · rintro ⟨t', ht', -, hrest⟩
      exact ⟨hcall.mp (by simp [ht']), (hnext ht').mp hrest⟩
    · rintro ⟨husable, hrest⟩
      obtain ⟨t', ht'⟩ := Option.isSome_iff_exists.mp (hcall.mpr husable)
      refine ⟨t', ht', fun hnone => ?_, (hnext ht').mpr hrest⟩
      obtain ⟨p, hp⟩ := hpaths.lattice.states_ne_nil_iff.mp (hpaths.usable_iff.mp husable).1
      rw [logLattice_of_shape hfst] at hnone
      exact absurd ((VectorFst.accepts_map _ _ _).mpr hp) (hnone p)

section Constructed
variable {exemplars : List (VectorFst LogWeight × VectorFst LogWeight)} {symbolBound : ℕ}
  {features : FeatureMap} {weights : List ℝ} {lambda : ℝ} {t₀ : TrainerLocal n}

theorem safeEStep_iff (hexemplars : ∀ exemplar ∈ exemplars, ComposedPaths comp F exemplar)
    (h : construct comp add F exemplars F.numArcs symbolBound features weights lambda n = some t₀)
    {t : TrainerLocal n} (hk : Kept t₀ t) :
    t.SafeEStep add comp ↔ ∀ exemplar ∈ exemplars, Usable F exemplar := by
  obtain ⟨hskeleton, -, -, hnum, hobs, hdata, hlattices⟩ := construct_eq_some h
  obtain ⟨G, obs, exp, hG, hobs', -, rfl⟩ := hk
  have hfill : fillNegDblMax t₀.numArcs obs = some (List.replicate t₀.numArcs negDblMax) :=
    fillNegDblMax_length (by omega)
  simp only [TrainerLocal.SafeEStep, hfill, Option.some.injEq, exists_eq_left', hdata, hlattices]
  exact safeCounts_iff exemplars hexemplars _ (shape_of_skeleton (hG.trans hskeleton))
    (by rw [List.length_replicate, hnum])

/-- A call of `train` with one iteration starts it on the constructed trainer. -/
theorem startsIteration_construct (hlen : weights.length = n)
    (h : construct comp add F exemplars F.numArcs symbolBound features weights lambda n = some t₀) :
    ∃ θ, StartsIteration add comp debugMode t₀ [[⟨[], 0⟩]] t₀ θ := by
  obtain ⟨-, -, hweights, -⟩ := construct_eq_some h
  obtain ⟨θ, hθ⟩ : ∃ θ, t₀.tmpWeights = some θ := ⟨_, dif_pos (by rw [hweights, hlen])⟩
  exact ⟨θ, [], [], ⟨[], 0⟩, [], [], rfl, iterationStart_eq_some.mpr ⟨t₀, θ, rfl, hθ, rfl⟩⟩

end Constructed

theorem composedPaths_twoArcs : ComposedPaths sequenceCompose twoArcs (oneSymbol, oneSymbol) where
  machine := realFinals_parallel _
  medial := composes_sequenceCompose _ _
  lattice := composes_sequenceCompose _ _
  input := realFinals_parallel _
  output := realFinals_parallel _
  medialPaths := (isExact_sequenceCompose _ _).toIsComposition
  latticePaths := (isExact_sequenceCompose _ _).toIsComposition

theorem usable_twoArcs : Usable twoArcs (oneSymbol, oneSymbol) := by
  refine ⟨⟨[0], [0], [0], accepts_parallel.mpr ⟨0, one_pos, rfl⟩,
    accepts_parallel.mpr ⟨0, two_pos, rfl⟩,
    accepts_parallel.mpr ⟨0, one_pos, rfl⟩, rfl, rfl⟩, fun px pf py _ =>
      ⟨fun x _ hx => ?_, fun y _ hy => ?_⟩⟩
  · obtain ⟨⟨q, a⟩, ha, hzero⟩ := Option.map_eq_some_iff.mp hx
    exact isAcceptor_oneSymbol.ilabel x q a ha ((isAcceptor_oneSymbol.same x q a ha).trans hzero)
  · obtain ⟨⟨q, a⟩, ha, hzero⟩ := Option.map_eq_some_iff.mp hy
    exact isAcceptor_oneSymbol.ilabel y q a ha hzero

/-- The constructor, on the machine with two arcs. -/
theorem exists_construct_exemplars (comp : Composer)
    (exemplars : List (VectorFst LogWeight × VectorFst LogWeight)) : ∃ t₀ : TrainerLocal 1,
      construct comp logsum twoArcs exemplars twoArcs.numArcs 2 [[0], []] [0] 0 1 = some t₀ := by
  have h := isTrainer_twoArcs 0
  have hupdate := updateArcWeightsMember_eq logsum
    { fst := twoArcs, fstFeature := .empty, dataFormatted := [], dataFormattedFeatures := []
      features := [[0], []], weights := [0], numArcs := twoArcs.numArcs, symbolBound := 2
      regularizationCoefficient := 0, observedCounts := List.replicate twoArcs.numArcs 0
      expectedCounts := List.replicate twoArcs.numArcs 0 : TrainerLocal 1 } h.rows h.labels
  rw [construct, hupdate]
  exact ⟨_, rfl⟩

/-- The composition of machines that have no string in common. -/
def composeNothing : Composer := fun _ _ => ⟨none, []⟩

/-- An acceptor of a symbol that `twoArcs` does not read. -/
noncomputable def unknownSymbol : VectorFst LogWeight :=
  ⟨some 0, [⟨none, [⟨2, 2, 1, 1⟩]⟩, ⟨some 1, []⟩]⟩

section Nothing
variable {A B : VectorFst Unit}

theorem arc?_nothing (e : ℕ) : (composeNothing A B).arc? e = none := rfl

theorem not_accepts_nothing {V : Type*} {f g : Origin → V} (p : List ℕ) :
    ¬ ((composeNothing A B).map f g).Accepts p := by
  rintro ⟨q, q₀, hstart, -, -⟩
  contradiction

theorem composes_nothing : Composes A B (composeNothing A B) := by
  refine ⟨fun h => absurd rfl h, fun _ => rfl, fun e q a h => ?_,
    fun q hq => absurd hq (Nat.not_lt_zero q),
    fun q hq => absurd hq (Nat.not_lt_zero q), fun e q a h => ?_, fun q o h => ?_⟩
  · rw [arc?_nothing] at h
    contradiction
  · rw [arc?_nothing] at h
    contradiction
  · simp [VectorFst.final?, composeNothing] at h

theorem isComposition_nothing
    (h : ∀ p₁ p₂, A.Accepts p₁ → B.Accepts p₂ → A.ostring p₁ ≠ B.istring p₂) :
    IsComposition A B (composeNothing A B) := by
  refine ⟨composes_nothing.matched, fun q o h => ?_, fun p q q₁ q₂ hp => ?_,
    fun p₁ p₂ q₁ q₂ h₁ h₂ heq => absurd heq (h p₁ p₂ ⟨q₁, h₁⟩ ⟨q₂, h₂⟩)⟩
  · simp [VectorFst.final?, composeNothing] at h
  · obtain ⟨q₀, hstart, -⟩ := hp
    contradiction

end Nothing

/-- The strings of `twoArcs` and of the unknown symbol differ. -/
theorem ostring_unknownSymbol_ne {p₁ p₂ : List ℕ} (h₂ : twoArcs.Accepts p₂) :
    unknownSymbol.ostring p₁ ≠ twoArcs.istring p₂ := by
  obtain ⟨e, he, rfl⟩ := accepts_parallel.mp h₂
  have hstring : twoArcs.istring [e] = [1] := by
    have harc : twoArcs.arc? e = some (0, ⟨1, 1, ([1, 1] : List LogWeight)[e], 1⟩) := by
      rw [twoArcs, arc?_parallel, List.getElem?_eq_getElem he]
      rfl
    rw [VectorFst.istring_cons harc]
    rfl
  rw [hstring]
  intro heq
  have hmem : (1 : ℤ) ∈ unknownSymbol.ostring p₁ := heq ▸ List.mem_singleton_self 1
  obtain ⟨e', -, he'⟩ := List.mem_filterMap.mp (List.mem_filter.mp hmem).1
  rcases e' with _ | e'
  · simp [VectorFst.olabel?, VectorFst.arc?, unknownSymbol, arcsFrom] at he'
  · simp [VectorFst.olabel?, VectorFst.arc?, unknownSymbol, arcsFrom] at he'

theorem composedPaths_nothing : ComposedPaths composeNothing twoArcs
    (unknownSymbol, oneSymbol) where
  machine := realFinals_parallel _
  input := by
    intro q w h
    match q with
    | 0 => simp [VectorFst.final?, unknownSymbol] at h
    | 1 =>
      obtain rfl : 1 = w := by simpa [VectorFst.final?, unknownSymbol] using h
      exact ⟨one_ne_zero, ENNReal.one_ne_top⟩
    | q + 2 => simp [VectorFst.final?, unknownSymbol] at h
  output := realFinals_parallel _
  medial := composes_nothing
  lattice := composes_nothing
  medialPaths := isComposition_nothing fun p₁ p₂ _ h₂ => by
    simp only [VectorFst.shape, VectorFst.istring_map, VectorFst.ostring_map]
    exact ostring_unknownSymbol_ne ((VectorFst.accepts_map _ _ _).mp h₂)
  latticePaths := isComposition_nothing fun p₁ p₂ h₁ _ => absurd h₁ (not_accepts_nothing p₁)

theorem not_usable_unknownSymbol : ¬ Usable twoArcs (unknownSymbol, oneSymbol) := by
  rintro ⟨⟨px, pf, py, -, hf, -, heq, -⟩, -⟩
  exact ostring_unknownSymbol_ne hf heq

end StochasticEdit.Trainer
