import StochasticEdit.Generator.Alignments
import StochasticEdit.Pipeline.Distances

/-! The lattices of the training. A path through the lattice of a pair is a path of the
transducer that relates the two strings, and so an alignment of them. There are finitely many,
and at least one, so that every pair can be used in training. -/

namespace StochasticEdit.Pipeline

open Wfst Generator Features Trainer Evaluation Text
open scoped ENNReal

/-! ### The paths of a lattice -/

section Paths
variable {comp : Composer} {F : VectorFst LogWeight} {s t : List ℤ}

/-- An acceptor of a string has one path, which spells it. -/
theorem exists_path_goldFst (hs : ∀ l ∈ s, l ≠ 0) : ∃ p, (goldFst s).Accepts p ∧
    (goldFst s).istring p = s ∧
    (goldFst s).ostring p = s ∧ ∀ p', (goldFst s).Accepts p' → p' = p := by
  let l := s.map fun x => (x, x)
  have hfilter : s.filter (· ≠ 0) = s := List.filter_eq_self.mpr fun x hx =>
    decide_eq_true (hs x hx)
  have hfst : l.map Prod.fst = s := by rw [List.map_map]; exact List.map_id s
  have hsnd : l.map Prod.snd = s := by rw [List.map_map]; exact List.map_id s
  obtain ⟨hi, ho⟩ := strings_linear (W := LogWeight) (l := l) (walk_linear_range' (Nat.zero_add _))
  rw [List.drop_zero, hfst, hfilter] at hi
  rw [List.drop_zero, hsnd, hfilter] at ho
  have haccepts : (goldFst s).Accepts (List.range' 0 l.length) :=
    ⟨l.length, acceptsAt_linear_iff.mpr ⟨rfl, rfl⟩⟩
  exact ⟨_, haccepts, hi, ho, fun p' hp' => accepts_linear_eq hp' haccepts⟩

/-- Reading a string: the composition has the paths of the machine that read it. -/
theorem rightPath_bijOn {C : VectorFst Origin} (hs : ∀ l ∈ s, l ≠ 0)
    (h : IsExact (goldFst s).shape F.shape C) :
    Set.BijOn C.rightPath {p | C.Accepts p} {p | F.Accepts p ∧ F.istring p = s} := by
  obtain ⟨a, ha, -, hao, hunique⟩ := exists_path_goldFst hs
  have hmachine {p : List ℕ} (hp : C.Accepts p) :
      F.Accepts (C.rightPath p) ∧ C.leftPath p = a ∧ F.istring (C.rightPath p) = s := by
    obtain ⟨hleft, hright, hshared⟩ := h.accepts hp
    have hpath := hunique _ ((VectorFst.accepts_shape _).mp hleft)
    rw [VectorFst.ostring_shape, VectorFst.istring_shape, hpath, hao] at hshared
    exact ⟨(VectorFst.accepts_shape _).mp hright, hpath, hshared.symm⟩
  refine ⟨fun p hp => ?_, fun p hp p' hp' heq => ?_, fun f hf => ?_⟩
  · exact ⟨(hmachine hp).1, (hmachine hp).2.2⟩
  · exact h.unique p p' hp hp' ((hmachine hp).2.1.trans (hmachine hp').2.1.symm) heq
  · obtain ⟨p, hp, -, hright⟩ := h.exists_accepts ((VectorFst.accepts_shape _).mpr ha)
      ((VectorFst.accepts_shape _).mpr hf.1)
        (by rw [VectorFst.ostring_shape, VectorFst.istring_shape, hao, hf.2])
    exact ⟨p, hp, hright⟩

/-- Writing a string: the composition has the paths of the left machine that write it. -/
theorem leftPath_bijOn {C D : VectorFst Origin} (ht : ∀ l ∈ t, l ≠ 0)
    (h : IsExact C.shape (goldFst t).shape D) :
    Set.BijOn D.leftPath {p | D.Accepts p} {p | C.Accepts p ∧ C.ostring p = t} := by
  obtain ⟨b, hb, hbi, -, hunique⟩ := exists_path_goldFst ht
  have hmachine {p : List ℕ} (hp : D.Accepts p) :
      C.Accepts (D.leftPath p) ∧ D.rightPath p = b ∧ C.ostring (D.leftPath p) = t := by
    obtain ⟨hleft, hright, hshared⟩ := h.accepts hp
    have hpath := hunique _ ((VectorFst.accepts_shape _).mp hright)
    rw [VectorFst.ostring_shape, VectorFst.istring_shape, hpath, hbi] at hshared
    exact ⟨(VectorFst.accepts_shape _).mp hleft, hpath, hshared⟩
  refine ⟨fun p hp => ?_, fun p hp p' hp' heq => ?_, fun m hm => ?_⟩
  · exact ⟨(hmachine hp).1, (hmachine hp).2.2⟩
  · exact h.unique p p' hp hp' heq ((hmachine hp).2.1.trans (hmachine hp').2.1.symm)
  · obtain ⟨p, hp, hleft, -⟩ := h.exists_accepts ((VectorFst.accepts_shape _).mpr hm.1)
      ((VectorFst.accepts_shape _).mpr hb)
        (by rw [VectorFst.ostring_shape, VectorFst.istring_shape, hbi, hm.2])
    exact ⟨p, hp, hleft⟩

/-- The path of the machine under a path of the lattice. -/
def machinePath (comp : Composer) (F : VectorFst LogWeight)
    (exemplar : VectorFst LogWeight × VectorFst LogWeight) (p : List ℕ) : List ℕ :=
  (medialOrigins comp F exemplar.1).rightPath ((latticeOrigins comp F exemplar).leftPath p)

/-- The lattice of two strings has the paths of the machine that relate them. -/
theorem machinePath_bijOn (hs : ∀ l ∈ s, l ≠ 0) (ht : ∀ l ∈ t, l ≠ 0)
    (h : ExactLattice comp F (goldFst s, goldFst t)) :
    Set.BijOn (machinePath comp F (goldFst s, goldFst t))
      {p | (latticeOrigins comp F (goldFst s, goldFst t)).Accepts p}
      {p | F.Accepts p ∧ F.istring p = s ∧ F.ostring p = t} := by
  let C := medialOrigins comp F (goldFst s)
  have hright : Set.BijOn C.rightPath {p | C.Accepts p} {p | F.Accepts p ∧ F.istring p = s} :=
    rightPath_bijOn hs h.medial
  have hout {p : List ℕ} (hp : C.Accepts p) : F.ostring (C.rightPath p) = C.ostring p := by
    rw [← VectorFst.ostring_shape]
    exact (h.medial.strings hp).2
  have hwriting : Set.BijOn C.rightPath {p | C.Accepts p ∧ C.ostring p = t}
      {p | F.Accepts p ∧ F.istring p = s ∧ F.ostring p = t} := by
    refine ⟨fun p hp => ?_, hright.injOn.mono fun p hp => hp.1, fun f hf => ?_⟩
    · exact ⟨(hright.mapsTo hp.1).1, (hright.mapsTo hp.1).2, (hout hp.1).trans hp.2⟩
    · obtain ⟨p, hp, rfl⟩ := hright.surjOn ⟨hf.1, hf.2.1⟩
      exact ⟨p, ⟨hp, (hout hp).symm.trans hf.2.2⟩, rfl⟩
  exact hwriting.comp (leftPath_bijOn ht h.lattice)

/-! ### The weight of a path -/

theorem shape_linear {V : Type*} [One V] (l : List (ℤ × ℤ)) : (linear V l).shape = linear Unit l :=
  map_linear rfl l

/-- The lattice of two strings, in any semiring. -/
def latticeOf {V : Type*} [One V] [Mul V] (comp : Composer) (G : VectorFst V) (s t : List ℤ) :
    VectorFst V :=
  VectorFst.compose comp (VectorFst.compose comp (linear V (s.map fun l => (l, l))) G)
    (linear V (t.map fun l => (l, l)))

section Semiring
variable {V : Type*} [CommMonoid V] {G : VectorFst V}

theorem origins_medial (comp : Composer) (hG : G.shape = F.shape) (s : List ℤ) :
    comp (linear V (s.map fun l => (l, l))).shape G.shape = medialOrigins comp F (goldFst s) := by
  rw [hG, shape_linear, medialOrigins, goldFst, shape_linear]

theorem origins_lattice (comp : Composer) (hG : G.shape = F.shape) (s t : List ℤ) :
    comp (VectorFst.compose comp (linear V (s.map fun l => (l, l))) G).shape
      (linear V (t.map fun l => (l, l))).shape =
      latticeOrigins comp F (goldFst s, goldFst t) := by
  rw [shape_compose, origins_medial comp hG, shape_linear, latticeOrigins, goldFst, goldFst,
    shape_linear]

theorem weight_medial (hG : G.shape = F.shape)
    (h : IsExact (goldFst s).shape F.shape (medialOrigins comp F (goldFst s))) {path : List ℕ}
    {q : ℕ} (hpath : (medialOrigins comp F (goldFst s)).AcceptsAt path q) :
    ∃ q', G.AcceptsAt ((medialOrigins comp F (goldFst s)).rightPath path) q' ∧
      (VectorFst.compose comp (linear V (s.map fun l => (l, l))) G).weight path q =
        G.weight ((medialOrigins comp F (goldFst s)).rightPath path) q' := by
  have hC := origins_medial comp hG s
  obtain ⟨o, ho⟩ := Option.isSome_iff_exists.mp hpath.choose_spec.2.2
  obtain ⟨r₁, r₂, rfl⟩ := h.final q o ho
  obtain ⟨-, hright⟩ := h.sound path q r₁ r₂ hpath ho
  refine ⟨r₂, ?_, ?_⟩
  · exact (VectorFst.acceptsAt_map _ _ _).mp (hG ▸ hright)
  · rw [VectorFst.weight_compose (hC ▸ hpath) (hC ▸ ho), weight_linear, one_mul, hC]

/-- A path of the lattice weighs as much as the path of the machine under it. -/
theorem weight_latticeOf (hG : G.shape = F.shape) (h : ExactLattice comp F (goldFst s, goldFst t))
    {path : List ℕ} {q : ℕ}
    (hpath : (latticeOrigins comp F (goldFst s, goldFst t)).AcceptsAt path q) :
    ∃ q', G.AcceptsAt (machinePath comp F (goldFst s, goldFst t) path) q' ∧
      (latticeOf comp G s t).weight path q =
        G.weight (machinePath comp F (goldFst s, goldFst t) path) q' := by
  have hD := origins_lattice comp hG s t
  obtain ⟨o, ho⟩ := Option.isSome_iff_exists.mp hpath.choose_spec.2.2
  obtain ⟨q₁, q₂, rfl⟩ := h.lattice.final q o ho
  obtain ⟨hleft, -⟩ := h.lattice.sound path q q₁ q₂ hpath ho
  obtain ⟨q', hq', hweight⟩ := weight_medial hG h.medial ((VectorFst.acceptsAt_map _ _ _).mp hleft)
  refine ⟨q', hq', ?_⟩
  rw [latticeOf, VectorFst.weight_compose (hD ▸ hpath) (hD ▸ ho), weight_linear, mul_one, hD]
  exact hweight

end Semiring

end Paths

/-! ### Alignments -/

section Pairs
variable {ord : HashOrder} {args : Args} {M : Machine LogWeight} {comp : Composer}
  {p : List Sym × List Sym}

/-- The script of a path of the lattice. -/
noncomputable def latticeScript (comp : Composer) (args : Args) (M : Machine LogWeight)
    (p : List Sym × List Sym) (path : List ℕ) :
    List Edit := M.edits args (machinePath comp M.fst (exemplar args p) path)

theorem latticeScript_bijOn (h : contextualEdit LogWeight ord args = some M) (hV : args.Valid)
    (hu : args.sizes.ulcMax ≤ 1) (hl : args.sizes.llcMax ≤ 1) (hr : 1 ≤ args.sizes.urcMax)
    (hp : Over args p) (hexact : ExactLattice comp M.fst (exemplar args p)) :
    Set.BijOn (latticeScript comp args M p)
      {path | (latticeOrigins comp M.fst (exemplar args p)).Accepts path}
      (scripts p.1 p.2) := by
  have hpaths := machinePath_bijOn (idIn_padded_ne_zero hV.unreserved hp.1)
    (idOut_ne_zero_of_mem hV.unreserved hp.2) hexact
  rw [← labels_eq hV hp.1 hp.2] at hpaths
  exact (edits_bijOn h hV hu hl hr hp.1 hp.2).comp hpaths

theorem weight_weighted (h : contextualEdit LogWeight ord args = some M) (w : ℕ → LogWeight)
    {path : List ℕ} {q : ℕ} (hpath : (weighted M.fst w).AcceptsAt path q) :
    (weighted M.fst w).weight path q = pathWeight w path := by
  obtain ⟨q₀, -, hwalk, hfinal⟩ := id hpath
  obtain ⟨x, hx⟩ := Option.isSome_iff_exists.mp hfinal
  have hone : (weighted M.fst w).finalAt (some q) = 1 := by
    rw [VectorFst.finalAt, Option.bind_some, hx, final?_eq_one h w hx]
    rfl
  rw [VectorFst.weight, hone, mul_one]
  refine congrArg List.prod (List.map_congr_left fun e he => ?_)
  obtain ⟨r, a, ha⟩ := VectorFst.exists_arc_of_walk hwalk he
  have hlt := VectorFst.lt_numArcs_of_arc? ha
  rw [numArcs_weighted] at hlt
  exact weightAt_weighted hlt

theorem machinePath_labels (hV : args.Valid) (hp : Over args p)
    (hexact : ExactLattice comp M.fst (exemplar args p)) {path : List ℕ}
    (hpath : (latticeOrigins comp M.fst (exemplar args p)).Accepts path) :
    M.Labels args (p.1 ++ padding args) p.2 (machinePath comp M.fst (exemplar args p) path) := by
  have hmaps := (machinePath_bijOn (idIn_padded_ne_zero hV.unreserved hp.1)
    (idOut_ne_zero_of_mem hV.unreserved hp.2) hexact).mapsTo hpath
  rwa [← labels_eq hV hp.1 hp.2] at hmaps

/-- A path of the lattice weighs as much as the arcs of the machine under it. -/
theorem value_lattice (h : contextualEdit LogWeight ord args = some M) (w : ℕ → LogWeight)
    (hexact : ExactLattice comp M.fst (exemplar args p)) {path : List ℕ}
    (hpath : (latticeOrigins comp M.fst (exemplar args p)).Accepts path) :
    (logLattice comp (weighted M.fst w) (exemplar args p)).value path =
      pathWeight w (machinePath comp M.fst (exemplar args p) path) := by
  have hshape : (weighted M.fst w).shape = M.fst.shape := shape_weighted M.fst w
  obtain ⟨q, hq⟩ := hpath
  obtain ⟨q', hq', hweight⟩ := weight_latticeOf hshape hexact hq
  rw [VectorFst.value_eq_weight ((acceptsAt_lattice _ path q).mpr hq)]
  exact hweight.trans (weight_weighted h w hq')

/-- A path of the lattice weighs as much as its script. -/
theorem value_lattice_probs (h : contextualEdit LogWeight ord args = some M) (hV : args.Valid)
    (hu : args.sizes.ulcMax ≤ 1) (hl : args.sizes.llcMax ≤ 1) (hr : 1 ≤ args.sizes.urcMax)
    (hp : Over args p) (hexact : ExactLattice comp M.fst (exemplar args p)) (m : EditModel)
    {path : List ℕ} (hpath : (latticeOrigins comp M.fst (exemplar args p)).Accepts path) :
    (logLattice comp (weighted M.fst (M.probs args m)) (exemplar args p)).value path =
      scriptProb args m [] p.1 [] (latticeScript comp args M p path) := by
  rw [value_lattice h _ hexact hpath]
  exact pathWeight_labels h hV hu hl hr m hp.1 hp.2 (machinePath_labels hV hp hexact hpath)

end Pairs

/-- The lattice of two strings has a path for each alignment of them, which weighs as much as
the model gives the alignment, and their number is the Delannoy number of the two lengths. -/
theorem lattice_alignments (ord : HashOrder) (args : Args) (hV : args.Valid)
    (hu : args.sizes.ulcMax ≤ 1) (hl : args.sizes.llcMax ≤ 1) (hr : 1 ≤ args.sizes.urcMax) :
    ∃ M, contextualEdit LogWeight ord args = some M ∧
      ∀ (comp : Composer) (p : List Sym × List Sym), Over args p →
        ExactLattice comp M.fst (exemplar args p) →
        ∀ m : EditModel,
          let L := logLattice comp (weighted M.fst (M.probs args m)) (exemplar args p)
          Set.BijOn (latticeScript comp args M p) {path | L.Accepts path} (scripts p.1 p.2) ∧
          {path | L.Accepts path}.encard = delannoy p.1.length p.2.length ∧
          ∀ path, L.Accepts path →
            L.value path = scriptProb args m [] p.1 [] (latticeScript comp args M p path) := by
  obtain ⟨M, h⟩ := exists_contextualEdit LogWeight ord (.inl hu : Completes args)
  refine ⟨M, h, fun comp p hp hexact m => ?_⟩
  have hbij := latticeScript_bijOn h hV hu hl hr hp hexact
  have hset :
      {path | (logLattice comp (weighted M.fst (M.probs args m)) (exemplar args p)).Accepts path} =
      {path | (latticeOrigins comp M.fst (exemplar args p)).Accepts path} := Set.ext fun path =>
        accepts_lattice _ path
  refine ⟨hset ▸ hbij, ?_, fun path hpath => ?_⟩
  · rw [hset, ← encard_scripts, ← hbij.image_eq]
    exact hbij.injOn.encard_image.symm
  · exact value_lattice_probs h hV hu hl hr hp hexact m ((accepts_lattice _ path).mp hpath)

theorem lattice_alignments_one_one_one : ∃ M, contextualEdit LogWeight
    insertionOrder (smallArgs ⟨1, 1, 1⟩) = some M ∧
    ∀ m : EditModel, {path | (logLattice product (weighted M.fst (M.probs (smallArgs ⟨1, 1, 1⟩) m))
      (exemplar (smallArgs ⟨1, 1, 1⟩) (["a"], ["b"]))).Accepts path}.encard = delannoy 1 1 := by
  obtain ⟨M, h, hall⟩ := lattice_alignments insertionOrder (smallArgs ⟨1, 1, 1⟩) (smallArgs_valid _)
    le_rfl le_rfl le_rfl
  exact ⟨M, h, fun m => (hall product (["a"], ["b"]) (over_small _ _ (by simp))
    (exactLattice_small _ M.fst _ (by simp)) m).2.1⟩

end StochasticEdit.Pipeline
