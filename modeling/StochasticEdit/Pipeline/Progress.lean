import StochasticEdit.Pipeline.Lattices
import StochasticEdit.Pipeline.Trained
import StochasticEdit.Trainer.Progress
import StochasticEdit.Wfst.Connect

/-! Training never fails. Every pair of strings over the alphabets has an alignment, and only
finitely many, so its lattice is never empty and every arc of it stands for an arc of the
transducer. The trainer of such pairs goes through any calls of `train`. -/

namespace StochasticEdit.Pipeline

open Wfst Generator Features Trainer Evaluation Text
open scoped ENNReal

/-! ### The pairs are usable -/

/-- The compositions of a lattice are exact and trimmed. -/
structure TrimmedLattice (comp : Composer) (F : VectorFst LogWeight)
    (exemplar : VectorFst LogWeight × VectorFst LogWeight) :
    Prop extends ExactLattice comp F exemplar where
  medialStates : Composes exemplar.1.shape F.shape (medialOrigins comp F exemplar.1)
  latticeStates : Composes (medialOrigins comp F exemplar.1).shape exemplar.2.shape
    (latticeOrigins comp F exemplar)

theorem isAcceptor_goldFst {s : List ℤ} (hs : ∀ l ∈ s, l ≠ 0) : IsAcceptor (goldFst s) := by
  have harc {e q : ℕ} {a : Arc LogWeight} (ha : (goldFst s).arc? e = some (q, a)) :
      ∃ l ∈ s, a = ⟨l, l, 1, e + 1⟩ := by
    rw [goldFst, arc?_linear] at ha
    obtain ⟨x, hx, heq⟩ := Option.map_eq_some_iff.mp ha
    obtain ⟨l, hl, rfl⟩ := List.mem_map.mp (List.mem_of_getElem? hx)
    exact ⟨l, hl, (Prod.mk.inj heq).2.symm⟩
  refine ⟨fun e q a ha => ?_, fun e q a ha => ?_, fun e q a ha => ?_, fun q x hx => ?_⟩
  · obtain ⟨l, -, rfl⟩ := harc ha
    rfl
  · obtain ⟨l, hl, rfl⟩ := harc ha
    exact hs l hl
  · obtain ⟨l, -, rfl⟩ := harc ha
    exact ENNReal.one_ne_top
  · rw [goldFst, final?_linear, Option.ite_none_right_eq_some, Option.some.injEq] at hx
    rw [← hx.2]
    exact ⟨one_ne_zero, ENNReal.one_ne_top⟩

section Usable
variable {comp : Composer} {ord : HashOrder} {args : Args} {M : Machine LogWeight}
  {p : List Sym × List Sym}

theorem realFinals (h : contextualEdit LogWeight ord args = some M) : RealFinals M.fst := by
  intro q x hx
  rw [← weighted_arcWeight M.fst] at hx
  rw [final?_eq_one h _ hx]
  exact ⟨one_ne_zero, ENNReal.one_ne_top⟩

theorem TrimmedLattice.composable (hexact : TrimmedLattice comp M.fst (exemplar args p))
    (h : contextualEdit LogWeight ord args = some M) (hV : args.Valid) (hp : Over args p) :
    Composable comp M.fst (exemplar args p) where
  machine := realFinals h
  input := isAcceptor_goldFst (idIn_padded_ne_zero hV.unreserved hp.1)
  output := isAcceptor_goldFst (idOut_ne_zero_of_mem hV.unreserved hp.2)
  medial := hexact.medialStates
  lattice := hexact.latticeStates

/-- A pair over the alphabets has an alignment, and finitely many. -/
theorem TrimmedLattice.exemplar (hexact : TrimmedLattice comp M.fst (exemplar args p))
    (h : contextualEdit LogWeight ord args = some M) (hV : args.Valid) (hu : args.sizes.ulcMax ≤ 1)
    (hl : args.sizes.llcMax ≤ 1) (hr : 1 ≤ args.sizes.urcMax) (hp : Over args p) :
    Exemplar comp M.fst (exemplar args p) where
  toComposable := hexact.composable h hV hp
  finite := by
    have hbij := latticeScript_bijOn h hV hu hl hr hp hexact.toExactLattice
    exact Set.Finite.of_finite_image
      ((scripts_finite p.1 p.2).subset hbij.mapsTo.image_subset) hbij.injOn
  exists_path := by
    have hbij := latticeScript_bijOn h hV hu hl hr hp hexact.toExactLattice
    obtain ⟨path, hpath, -⟩ := hbij.surjOn (rewriteAll_mem_scripts p.1 p.2)
    refine ⟨path, ?_⟩
    rw [value_lattice h _ hexact.toExactLattice hpath]
    simp [pathWeight]

end Usable

/-! ### Runs of the training -/

section Runs
variable {comp : Composer} {ord : HashOrder} {args : Args} {M : Machine LogWeight}
  {reader : FeatureReader} {order : List Str} {symbolBound : ℕ} {data : List (List Sym × List Sym)}
  {lambda : ℝ} {t : TrainerLocal reader.numberFeatures.toNat}

/-- The trainer that `main` constructs can be trained. -/
theorem ready_of_initial (htable : Table args M reader order)
    (hlabels : LabelsBelow M.fst M.fst.numArcs) (hbound : LabelsBelow M.fst symbolBound)
    (hne : data ≠ []) (hdata : ∀ p ∈ data, Exemplar comp M.fst (exemplar args p))
    (h : initial comp logsum args M reader symbolBound data lambda = some t) :
    Ready comp M.fst t := by
  obtain ⟨t₁, hinitial, hholds⟩ := exists_initial comp data lambda htable hlabels hbound
  obtain rfl := Option.some.inj (h.symm.trans hinitial)
  obtain ⟨-, -, hweights, -, -, hformatted, hlattices⟩ := construct_eq_some h
  obtain ⟨θ, -, hθ⟩ := construct_machineAt List.length_replicate hbound h
  refine ⟨⟨hholds.toSized, ?_, ?_, ?_⟩, ⟨θ, updateArcWeights_eq_self_iff.mpr hθ⟩, ?_⟩
  · rw [hlattices, hformatted]
  · rw [hformatted]
    exact fun hnil => hne (List.map_eq_nil_iff.mp hnil)
  · intro x hx
    rw [hformatted] at hx
    obtain ⟨p, hp, rfl⟩ := List.mem_map.mp hx
    exact hdata p hp
  · rw [hweights, List.length_replicate]

/-- So can a trainer after any calls of `train`. -/
theorem Trained.ready (htable : Table args M reader order)
    (hlabels : LabelsBelow M.fst M.fst.numArcs) (hbound : LabelsBelow M.fst symbolBound)
    (hne : data ≠ []) (hdata : ∀ p ∈ data, Exemplar comp M.fst (exemplar args p))
    (h : Trained comp logsum args M reader symbolBound data lambda t) : Ready comp M.fst t := by
  obtain ⟨t₀, debugMode, calls, hinitial, ht⟩ := h
  obtain ⟨t', ht', hready⟩ :=
    (ready_of_initial htable hlabels hbound hne hdata hinitial).exists_trainCalls debugMode calls
  obtain rfl := Option.some.inj (ht.symm.trans ht')
  exact hready

end Runs

/-- The trimmed product is trimmed and exact on acceptors without empty words. -/
theorem trimmedLattice_trimmedProduct (F : VectorFst LogWeight) {s t : List ℤ} (hs : ∀ l ∈ s, l ≠ 0)
    (ht : ∀ l ∈ t, l ≠ 0) : TrimmedLattice trimmedProduct F (goldFst s, goldFst t) where
  medial := isExact_trimmedProduct ((noEmpty_goldFst hs).noConflict_left F)
  lattice := isExact_trimmedProduct
    ((noEmpty_goldFst ht).noConflict_right (medialOrigins trimmedProduct F (goldFst s)))
  medialStates := composes_trimmedProduct _ _
  latticeStates := composes_trimmedProduct _ _

theorem trimmedLattice_small (sz : Sizes) (F : VectorFst LogWeight) :
    ∀ p ∈ [(["a"], ["b"])], TrimmedLattice trimmedProduct F (exemplar (smallArgs sz) p) := by
  intro p hp
  have hover := over_small sz p hp
  exact trimmedLattice_trimmedProduct F
    (idIn_padded_ne_zero (smallArgs_valid sz).unreserved hover.1)
    (idOut_ne_zero_of_mem (smallArgs_valid sz).unreserved hover.2)

end StochasticEdit.Pipeline
