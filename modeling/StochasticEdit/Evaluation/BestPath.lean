import StochasticEdit.Evaluation.Alphabets
import StochasticEdit.Evaluation.OneBest
import StochasticEdit.Wfst.Filter

/-! What the library documents. Composition is exact for all machines and leaves no useless
states; `ShortestPath` keeps a best path of a machine that has one, and `Reverse` turns its
strings round. There is a library that does this. -/

namespace StochasticEdit.Evaluation

open Wfst Trainer Generator

/-- The strings of an accepting path of least weight, which is not `Zero`. -/
def IsBest (F : VectorFst StdWeight) (st : List ℤ × List ℤ) : Prop :=
  ∃ w, F.Relates st.1 st.2 w ∧ w ≠ 0 ∧ ∀ s' t' w', F.Relates s' t' w' →
    Tropical.untrop w ≤ Tropical.untrop w'

/-- The operations do what they are documented to do. -/
structure Documented (lib : Library) : Prop where
  exact : ∀ F G, IsExact F G (lib.compose F G)
  trimmed : ∀ F G, Composes F G (lib.compose F G)
  selects : ∀ F, (∃ st, IsBest F st) → ∃ z, SelectsOutput lib F z
  reverses : ∀ F, (∃ st, IsBest F st) →
    Reverses (projectOutput (lib.shortestPath F)) (lib.reverse (projectOutput (lib.shortestPath F)))

/-! ### A library -/

section Library
open scoped Classical

/-- The chain that reads `s` and then writes `t`. -/
noncomputable def chain (st : List ℤ × List ℤ) : VectorFst StdWeight :=
  linear StdWeight (st.1.map (fun l => (l, 0)) ++ st.2.map fun l => (0, l))

/-- A chain for a best path. -/
noncomputable def bestChain (F : VectorFst StdWeight) : VectorFst StdWeight :=
  if h : ∃ st, IsBest F st then chain h.choose else .empty

/-- The labels of the arcs, in the order of the states. -/
def labelsOf {W : Type*} (F : VectorFst W) : List (ℤ × ℤ) :=
  F.states.flatMap fun s => s.arcs.map fun a => (a.ilabel, a.olabel)

/-- The chain of the arcs from the last to the first. -/
noncomputable def backwards (F : VectorFst StdWeight) : VectorFst StdWeight :=
  linear StdWeight (labelsOf F).reverse

noncomputable def documentedLibrary : Library := ⟨sequenceCompose, bestChain, backwards⟩

end Library

section Chains
variable {W : Type*} [One W]

theorem labelsOf_linear (l : List (ℤ × ℤ)) : labelsOf (linear W l) = l := by
  have hstates (k : ℕ) : (chainStates (some (1 : W)) k l).flatMap
    (fun s => s.arcs.map fun a => (a.ilabel, a.olabel)) =
      l := by
    induction l generalizing k with
    | nil => rfl
    | cons x l ih =>
      rw [chainStates, List.flatMap_cons, ih]
      rfl
  exact hstates 0

theorem projectOutput_linear (l : List (ℤ × ℤ)) :
    projectOutput (linear W l) = linear W (l.map fun x => (x.2, x.2)) := by
  have hstates (k : ℕ) : (chainStates (some (1 : W)) k l).map (fun s =>
      ⟨s.final.map id, s.arcs.map fun a => ⟨a.olabel, a.olabel, a.weight, a.nextstate⟩⟩) =
        chainStates (some 1) k (l.map fun x => (x.2, x.2)) := by
    induction l generalizing k with
    | nil => rfl
    | cons x l ih =>
      rw [chainStates, List.map_cons, ih]
      rfl
  unfold projectOutput VectorFst.mapArcs linear
  rw [hstates]

end Chains

/-- A path has no empty words in its strings. -/
theorem ne_zero_of_relates {F : VectorFst StdWeight} {s t : List ℤ} {w : StdWeight}
    (h : F.Relates s t w) :
    (∀ l ∈ s, l ≠ 0) ∧ ∀ l ∈ t, l ≠ 0 := by
  obtain ⟨p, q, -, rfl, rfl, -⟩ := h
  constructor
  · intro l hl
    exact of_decide_eq_true (List.mem_filter.mp hl).2
  · intro l hl
    exact of_decide_eq_true (List.mem_filter.mp hl).2

theorem relates_chain {st : List ℤ × List ℤ} (hs : ∀ l ∈ st.1, l ≠ 0) (ht : ∀ l ∈ st.2, l ≠ 0)
    {s t : List ℤ} {w : StdWeight} : (chain st).Relates s t w ↔ s = st.1 ∧ t = st.2 ∧ w = 1 := by
  have hkept {l : List ℤ} (h : ∀ x ∈ l, x ≠ 0) : l.filter (· ≠ 0) = l :=
    List.filter_eq_self.mpr fun x hx => decide_eq_true (h x hx)
  have hgone (l : List ℤ) : (l.map fun _ => (0 : ℤ)).filter (· ≠ 0) = [] := by
    rw [List.filter_eq_nil_iff]
    intro x hx
    obtain ⟨-, -, rfl⟩ := List.mem_map.mp hx
    simp
  unfold chain
  rw [relates_linear, List.map_append, List.map_append, List.map_map, List.map_map, List.map_map,
    List.map_map, List.filter_append, List.filter_append]
  have hfst : (st.1.map (Prod.fst ∘ fun l => (l, (0 : ℤ)))) = st.1 := List.map_id _
  have hsnd : (st.2.map (Prod.snd ∘ fun l => ((0 : ℤ), l))) = st.2 := List.map_id _
  have hread : (st.2.map (Prod.fst ∘ fun l => ((0 : ℤ), l))).filter (· ≠ 0) = [] := hgone st.2
  have hwrite : (st.1.map (Prod.snd ∘ fun l => (l, (0 : ℤ)))).filter (· ≠ 0) = [] := hgone st.1
  rw [hfst, hsnd, hread, hwrite, hkept hs, hkept ht, List.append_nil, List.nil_append]

/-- The reversed chain has the reversed strings, and no arc without weight. -/
theorem reverses_backwards (l : List (ℤ × ℤ)) : Reverses (linear StdWeight l)
    (backwards (linear StdWeight l)) := by
  have hne : (1 : StdWeight) ≠ 0 := stdWeight_one_ne_zero
  unfold backwards
  rw [labelsOf_linear]
  refine ⟨fun s t => ?_, fun e q a ha => ?_, fun q w hw => ?_⟩
  · simp only [relates_linear, List.map_reverse, List.filter_reverse, List.reverse_eq_iff]
  · rw [arc?_linear] at ha
    obtain ⟨x, -, heq⟩ := Option.map_eq_some_iff.mp ha
    rw [← (Prod.mk.inj heq).2]
    exact hne
  · rw [final?_linear, Option.ite_none_right_eq_some, Option.some.injEq] at hw
    rw [← hw.2]
    exact hne

theorem documented_documentedLibrary : Documented documentedLibrary where
  exact := isExact_sequenceCompose
  trimmed := composes_sequenceCompose
  selects := by
    intro F hbest
    have hchain : documentedLibrary.shortestPath F = chain hbest.choose := dif_pos hbest
    obtain ⟨w, hw, -, hleast⟩ := hbest.choose_spec
    obtain ⟨hs, ht⟩ := ne_zero_of_relates hw
    refine ⟨hbest.choose.2, hbest.choose.1, w, hw, hleast, fun s t => ?_⟩
    rw [hchain]
    simp only [relates_chain hs ht]
    constructor
    · rintro ⟨-, rfl, rfl, -⟩
      exact ⟨rfl, rfl⟩
    · rintro ⟨rfl, rfl⟩
      exact ⟨1, rfl, rfl, rfl⟩
  reverses := by
    intro F hbest
    have hchain : documentedLibrary.shortestPath F = chain hbest.choose := dif_pos hbest
    rw [hchain, chain, projectOutput_linear]
    exact reverses_backwards _

end StochasticEdit.Evaluation
