import StochasticEdit.Evaluation.EditMachine
import StochasticEdit.Wfst.Linear
import StochasticEdit.Wfst.Product

/-! The alphabets of the edit distance machine. Its tapes are both over the output table,
but it deletes and substitutes the symbols of the input table only. -/

namespace StochasticEdit.Evaluation

open Wfst Generator

/-- The acceptor of one string. -/
noncomputable def stringFst (y : List ℤ) : VectorFst StdWeight :=
  linear StdWeight (y.map fun l => (l, l))

theorem relates_stringFst {y : List ℤ} (hy : ∀ l ∈ y, l ≠ 0) {s t : List ℤ} {w : StdWeight} :
    (stringFst y).Relates s t w ↔ s = y ∧ t = y ∧ w = 1 := by
  have hfilter : y.filter (· ≠ 0) = y := by
    rw [List.filter_eq_self]
    exact fun l hl => decide_eq_true (hy l hl)
  rw [stringFst, relates_linear, List.map_map, List.map_map]
  have hmap : y.map (Prod.fst ∘ fun l => (l, l)) = y := List.map_id y
  have hmap' : y.map (Prod.snd ∘ fun l => (l, l)) = y := List.map_id y
  rw [hmap, hmap', hfilter]

/-- `y o edit_dist_std o z`. -/
noncomputable def editLattice (comp : Composer) (isymbols osymbols : List (Sym × ℤ))
    (y z : List ℤ) : VectorFst StdWeight :=
  VectorFst.compose comp (VectorFst.compose comp (stringFst y) (editDistStd isymbols osymbols))
    (stringFst z)

/-- The costs of the accepting paths. -/
def pathCosts (F : VectorFst StdWeight) : Set EReal := {c | ∃ s t, F.Relates s t (Tropical.trop c)}

section Costs
variable {comp : Composer} {isymbols osymbols : List (Sym × ℤ)} {y z : List ℤ}

theorem ne_zero_of_mem_ids {table : List (Sym × ℤ)} (h : ∀ l ∈ y, l ∈ ids table) : ∀ l ∈ y, l ≠ 0 :=
  fun l hl => (h l hl).1

theorem pathCosts_editLattice (hcomp : ∀ F G, IsComposition F G (comp F G)) (hy : ∀ l ∈ y, l ≠ 0)
    (hz : ∀ l ∈ z, l ≠ 0) : pathCosts (editLattice comp isymbols osymbols y z) =
      (fun n : ℕ => (n : EReal)) '' {n | Edits (ids isymbols) (ids osymbols) y z n} := by
  ext c
  rw [pathCosts, editLattice]
  simp only [relates_between hcomp (relates_stringFst hy) (relates_stringFst hz), Set.mem_ofPred_eq,
    Set.mem_image]
  constructor
  · rintro ⟨s, t, -, -, n, hn, hc⟩
    exact ⟨n, hn, (Tropical.trop_injective hc).symm⟩
  · rintro ⟨n, hn, rfl⟩
    exact ⟨y, z, rfl, rfl, n, hn, rfl⟩

end Costs

/-- Over the output table the least weight of a path is the distance if and only if the
input table has every symbol of the first string. -/
theorem editDistStd_isLeast_iff (comp : Composer) (hcomp : ∀ F G, IsComposition F G (comp F G))
    (isymbols osymbols : List (Sym × ℤ)) (y z : List ℤ) (hy : ∀ l ∈ y, l ∈ ids osymbols)
    (hz : ∀ l ∈ z, l ∈ ids osymbols) :
    IsLeast (pathCosts (editLattice comp isymbols osymbols y z)) (levenshtein y z : EReal) ↔
      ∀ l ∈ y, l ∈ ids isymbols := by
  have hmono : StrictMono fun n : ℕ => (n : EReal) := fun m n h => EReal.natCast_lt_iff.mpr h
  rw [pathCosts_editLattice hcomp (ne_zero_of_mem_ids hy) (ne_zero_of_mem_ids hz)]
  exact (hmono.map_isLeast.trans isLeast_edits_iff).trans (and_iff_left hz)

/-! ### Two tables -/

/-- An output table with one symbol more than the input table. -/
def shortTable : List (Sym × ℤ) := [("<eps>", 0), ("a", 1)]

def longTable : List (Sym × ℤ) := [("<eps>", 0), ("a", 1), ("b", 2)]

theorem mem_ids_longTable : ∀ l ∈ [(2 : ℤ)], l ∈ ids longTable := by
  intro l hl
  obtain rfl := List.mem_singleton.mp hl
  exact ⟨two_ne_zero, by decide⟩

theorem two_notMem_ids_shortTable : ¬ ∀ l ∈ [(2 : ℤ)], l ∈ ids shortTable := by
  intro h
  exact absurd (h 2 (List.mem_singleton_self 2)).2 (by decide)

theorem editDistStd_isLeast_letters :
    ¬ IsLeast (pathCosts (editLattice product shortTable longTable [2] [2]))
      (levenshtein [(2 : ℤ)] [2] : EReal) :=
  fun h => two_notMem_ids_shortTable
    ((editDistStd_isLeast_iff product isComposition_product shortTable longTable
    [2] [2] mem_ids_longTable mem_ids_longTable).mp h)

/-- A symbol of the output table that the input table lacks cannot even be kept. -/
theorem not_editDistStd_isLeast : ¬ ∀ (comp : Composer), (∀ F G, IsComposition F G (comp F G)) →
    ∀ (isymbols osymbols : List (Sym × ℤ)) (y z : List ℤ), (∀ l ∈ y, l ∈ ids osymbols) →
      (∀ l ∈ z, l ∈ ids osymbols) →
      IsLeast (pathCosts (editLattice comp isymbols osymbols y z)) (levenshtein y z : EReal) := by
  intro hclaim
  obtain ⟨hmem, -⟩ := hclaim product isComposition_product shortTable longTable [2]
    [2] mem_ids_longTable
    mem_ids_longTable
  rw [pathCosts_editLattice isComposition_product (ne_zero_of_mem_ids mem_ids_longTable)
    (ne_zero_of_mem_ids mem_ids_longTable)] at hmem
  obtain ⟨n, hn, -⟩ := hmem
  exact two_notMem_ids_shortTable (Edits.left_mem hn)

end StochasticEdit.Evaluation
