import StochasticEdit.Wfst.Compose
import StochasticEdit.Wfst.PathSum
import Mathlib.Algebra.BigOperators.Group.List.Basic

/-! Sums over the paths of a transducer with weights in the extended non-negative
reals: for every state the sum of the paths from the start and of the paths to the
final states, and the sum over all accepting paths. -/

namespace StochasticEdit.Wfst

open scoped ENNReal

namespace VectorFst

variable (F : VectorFst ℝ≥0∞)

def arcWeight (e : ℕ) : ℝ≥0∞ := F.weightAt (some e)

/-- The final weight of a state, 0 if it is not final. -/
def finalWeight (q : ℕ) : ℝ≥0∞ := (F.final? q).getD 0

/-- The weight of an accepting path, and 0 for other lists of arcs. -/
noncomputable def value (p : List ℕ) : ℝ≥0∞ :=
  F.start.elim 0 fun q => pathValue F.ends F.arcWeight F.finalWeight q p

/-- The sum over the accepting paths. -/
noncomputable def shortestDistance : ℝ≥0∞ := tsum F.value

/-- For every state the sum over the paths that lead to it. -/
noncomputable def forwardDistances : List ℝ≥0∞ :=
  F.start.elim [] fun q₀ => (List.range F.numStates).map (forward F.ends F.arcWeight q₀)

/-- For every state the sum over the paths from it to a final state. -/
noncomputable def backwardDistances : List ℝ≥0∞ :=
  F.start.elim [] fun _ => (List.range F.numStates).map (backward F.ends F.arcWeight F.finalWeight)

variable {F}

theorem arcWeight_eq {e q : ℕ} {a : Arc ℝ≥0∞} (h : F.arc? e = some (q, a)) :
    F.arcWeight e = a.weight := by
  rw [arcWeight, weightAt, Option.bind_some, h]
  rfl

theorem value_eq_zero {p : List ℕ} (h : ¬ F.Accepts p) : F.value p = 0 := by
  rw [value]
  rcases hs : F.start with _ | q₀
  · rfl
  · rw [Option.elim_some]
    rcases hw : walk F.ends q₀ p with _ | q
    · exact pathValue_eq_zero hw
    · rw [pathValue_of_walk hw, finalWeight]
      rcases hf : F.final? q with _ | f
      · exact mul_zero _
      · exact absurd ⟨q, q₀, hs, hw, by simp [hf]⟩ h

theorem value_of_acceptsAt {p : List ℕ} {q : ℕ} (h : F.AcceptsAt p q) :
    F.value p = pathWeight F.arcWeight p * F.finalWeight q := by
  obtain ⟨q₀, hs, hw, -⟩ := h
  rw [value, hs, Option.elim_some, pathValue_of_walk hw]

/-- Only the accepting paths contribute. -/
theorem shortestDistance_eq_sum (hfin : {p | F.Accepts p}.Finite) :
    F.shortestDistance = ∑ p ∈ hfin.toFinset, F.value p := by
  apply tsum_eq_sum
  intro p hp
  exact value_eq_zero fun h => hp (hfin.mem_toFinset.mpr h)

theorem value_eq_pathValue {q₀ : ℕ} (h : F.start = some q₀) :
    F.value = pathValue F.ends F.arcWeight F.finalWeight q₀ := by
  funext p
  rw [value, h, Option.elim_some]

theorem shortestDistance_eq_backward {q₀ : ℕ} (h : F.start = some q₀) :
    F.shortestDistance = backward F.ends F.arcWeight F.finalWeight q₀ := by
  rw [shortestDistance, value_eq_pathValue h, backward]

theorem getElem?_forwardDistances {q₀ q : ℕ} (h : F.start = some q₀) (hq : q < F.numStates) :
    F.forwardDistances[q]? = some (forward F.ends F.arcWeight q₀ q) := by
  rw [forwardDistances, h, Option.elim_some, List.getElem?_map, List.getElem?_range hq]
  rfl

theorem getElem?_backwardDistances {q₀ q : ℕ} (h : F.start = some q₀) (hq : q < F.numStates) :
    F.backwardDistances[q]? = some (backward F.ends F.arcWeight F.finalWeight q) := by
  rw [backwardDistances, h, Option.elim_some, List.getElem?_map, List.getElem?_range hq]
  rfl

/-- The paths through an arc, each as often as it uses the arc. -/
theorem forward_mul_backward_eq_tsum {q₀ q r e : ℕ} (hs : F.start = some q₀)
    (he : F.ends e = some (q, r)) :
    forward F.ends F.arcWeight q₀ q * F.arcWeight e * backward F.ends F.arcWeight F.finalWeight r =
      tsum fun p => p.count e * F.value p := by
  rw [forward_mul_backward he, ← value_eq_pathValue hs]

/-- Where only finitely many paths are accepted, no cycle leads through a state from
which a final state can be reached. -/
theorem eq_nil_of_cycle {q₀ : ℕ} (hs : F.start = some q₀) (hfin : {p | F.Accepts p}.Finite)
    {p p' : List ℕ} {q : ℕ} (hp : walk F.ends q₀ p = some q₀) (hp' : walk F.ends q₀ p' = some q)
    (hq : (F.final? q).isSome) : p = [] := by
  by_contra hne
  have hlen : 0 < p.length := List.length_pos_iff.mpr hne
  let f : ℕ → List ℕ := fun n => (List.replicate n p).flatten ++ p'
  have hf : Function.Injective f := by
    intro m n hmn
    have hl := congrArg List.length hmn
    simp only [f, List.length_append, List.length_flatten, List.map_replicate, List.sum_replicate,
      smul_eq_mul, Nat.add_right_cancel_iff] at hl
    exact Nat.eq_of_mul_eq_mul_right hlen hl
  refine Set.infinite_range_of_injective hf (hfin.subset ?_)
  rintro _ ⟨n, rfl⟩
  refine ⟨q, q₀, hs, ?_, hq⟩
  rw [walk_append, walk_replicate hp, Option.bind_some, hp']

/-- In a trimmed machine with finitely many accepting paths only the empty path leads
back to the start. -/
theorem forward_start {q₀ : ℕ} (hs : F.start = some q₀) (hfin : {p | F.Accepts p}.Finite)
    (hco : ∃ p q, walk F.ends q₀ p = some q ∧ (F.final? q).isSome) :
    forward F.ends F.arcWeight q₀ q₀ = 1 := by
  obtain ⟨p', q, hp', hq⟩ := hco
  rw [forward, tsum_eq_single []]
  · rw [walk_nil, if_pos rfl, pathWeight_nil]
  · intro p hp
    exact if_neg fun h => hp (eq_nil_of_cycle hs hfin h hp' hq)

end VectorFst

end StochasticEdit.Wfst
