import StochasticEdit.Evaluation.Model
import StochasticEdit.Wfst.EditDistance
import StochasticEdit.Wfst.Relation

/-! The edit distance machine relates every two strings over its two tables, with the
costs of the edit scripts between them. -/

namespace StochasticEdit.Evaluation

open Wfst Trainer Generator

/-- The ids of a table other than that of the empty word. -/
def ids (table : List (Sym × ℤ)) : Set ℤ := {i | i ≠ 0 ∧ i ∈ table.map Prod.snd}

/-- The arcs of the machine, all of them loops at its one state. -/
noncomputable def editArcs (isymbols osymbols : List (Sym × ℤ)) : List (Arc StdWeight) :=
  deletions isymbols ++ insertions osymbols ++ substitutions isymbols osymbols

variable {isymbols osymbols table : List (Sym × ℤ)}

theorem editDistStd_eq : editDistStd isymbols osymbols =
    ⟨some 0, [⟨some 1, editArcs isymbols osymbols⟩]⟩ := by
  have hfold (arcs done : List (Arc StdWeight)) :
      arcs.foldl (fun F arc => F.addArc 0 arc) (⟨some 0, [⟨some 1, done⟩]⟩ : VectorFst StdWeight) =
        ⟨some 0, [⟨some 1, done ++ arcs⟩]⟩ := by
    induction arcs generalizing done with
    | nil => rw [List.append_nil]; rfl
    | cons a arcs ih =>
      rw [List.foldl_cons]
      have hadd : (⟨some 0, [⟨some 1, done⟩]⟩ : VectorFst StdWeight).addArc 0 a =
          ⟨some 0, [⟨some 1, done ++ [a]⟩]⟩ := rfl
      rw [hadd, ih, List.append_assoc, List.singleton_append]
  exact hfold _ []

theorem mem_idList {i : ℤ} : i ∈ idList table ↔ i ∈ ids table := by
  rw [idList, List.mem_filter, decide_eq_true_iff, and_comm]
  rfl

theorem filterMap_ids {α : Type*} (f : ℤ → α) :
    (table.filterMap fun p => if p.2 ≠ 0 then some (f p.2) else none) = (idList table).map f := by
  induction table with
  | nil => rfl
  | cons p table ih =>
    rw [List.filterMap_cons, ih, idList_cons]
    by_cases hp : p.2 = 0 <;> simp [hp]

theorem deletions_eq : deletions isymbols =
    (idList isymbols).map fun x => ⟨x, 0, Tropical.trop ((1 : ℕ) : EReal), 0⟩ := by
  rw [← filterMap_ids, deletions, Nat.cast_one]

theorem insertions_eq : insertions osymbols =
    (idList osymbols).map fun y => ⟨0, y, Tropical.trop ((1 : ℕ) : EReal), 0⟩ := by
  rw [← filterMap_ids, insertions, Nat.cast_one]

/-- The cost of a substitution. -/
theorem substitution_eq (x y : ℤ) : (if x = y then some ⟨x, y, Tropical.trop 0, 0⟩
    else some ⟨x, y, Tropical.trop 1, 0⟩ : Option (Arc StdWeight)) =
      some ⟨x, y, Tropical.trop ((if x = y then 0 else 1 : ℕ) : EReal), 0⟩ := by
  split_ifs <;> simp

theorem substitutions_eq : substitutions isymbols osymbols = (idList isymbols).flatMap fun x =>
    (idList osymbols).map fun y =>
      ⟨x, y, Tropical.trop ((if x = y then 0 else 1 : ℕ) : EReal), 0⟩ := by
  induction isymbols with
  | nil => rfl
  | cons p isymbols ih =>
    have hrow : (osymbols.filterMap fun oit => if p.2 ≠ 0 ∧ oit.2 ≠ 0 then
        if p.2 = oit.2 then some ⟨p.2, oit.2, Tropical.trop 0, 0⟩
        else some ⟨p.2, oit.2, Tropical.trop 1, 0⟩ else none : List (Arc StdWeight)) =
        if p.2 ≠ 0 then (idList osymbols).map fun y =>
          ⟨p.2, y, Tropical.trop ((if p.2 = y then 0 else 1 : ℕ) : EReal), 0⟩ else [] := by
      simp only [substitution_eq]
      by_cases hp : p.2 = 0
      · simp [hp]
      · rw [if_pos hp, ← filterMap_ids]
        simp only [ne_eq, hp, not_false_eq_true, true_and]
    rw [substitutions] at ih ⊢
    rw [List.flatMap_cons, ih, hrow, idList_cons]
    by_cases hp : p.2 = 0
    · rw [if_neg (not_not.mpr hp), if_pos hp, List.nil_append]
    · rw [if_pos hp, if_neg hp, List.flatMap_cons]

theorem mem_deletions {a : Arc StdWeight} :
    a ∈ deletions isymbols ↔ ∃ x ∈ ids isymbols, ⟨x, 0, Tropical.trop 1, 0⟩ = a := by
  rw [deletions_eq, List.mem_map, Nat.cast_one]
  simp only [mem_idList]

theorem mem_insertions {a : Arc StdWeight} :
    a ∈ insertions osymbols ↔ ∃ y ∈ ids osymbols, ⟨0, y, Tropical.trop 1, 0⟩ = a := by
  rw [insertions_eq, List.mem_map, Nat.cast_one]
  simp only [mem_idList]

theorem mem_substitutions {a : Arc StdWeight} :
    a ∈ substitutions isymbols osymbols ↔ ∃ x ∈ ids isymbols, ∃ y ∈ ids osymbols,
      ⟨x, y, Tropical.trop ((if x = y then 0 else 1 : ℕ) : EReal), 0⟩ = a := by
  rw [substitutions_eq, List.mem_flatMap]
  simp only [List.mem_map, mem_idList]

/-- One operation of a script, as an arc. -/
theorem mem_editArcs {a : Arc StdWeight} : a ∈ editArcs isymbols osymbols ↔
    (∃ x ∈ ids isymbols, ⟨x, 0, Tropical.trop 1, 0⟩ = a) ∨
    (∃ y ∈ ids osymbols, ⟨0, y, Tropical.trop 1, 0⟩ = a) ∨
    ∃ x ∈ ids isymbols, ∃ y ∈ ids osymbols,
      ⟨x, y, Tropical.trop ((if x = y then 0 else 1 : ℕ) : EReal), 0⟩ = a := by
  rw [editArcs, List.mem_append, List.mem_append, mem_deletions, mem_insertions,
    mem_substitutions, or_assoc]

/-! ### Paths and scripts -/

theorem arc?_editDistStd (e : ℕ) : (editDistStd isymbols osymbols).arc? e =
    (editArcs isymbols osymbols)[e]?.map fun a => (0, a) := by
  rw [editDistStd_eq, VectorFst.arc?, arcsFrom, arcsFrom, List.append_nil, List.getElem?_map]

theorem trop_natCast_mul (m n : ℕ) :
    (Tropical.trop (m : EReal) * Tropical.trop (n : EReal) : StdWeight) =
    Tropical.trop ((n + m : ℕ) : EReal) := by
  rw [← Tropical.trop_add, Nat.cast_add, add_comm]

theorem exists_arc?_of_mem {a : Arc StdWeight} (ha : a ∈ editArcs isymbols osymbols) :
    ∃ e, (editDistStd isymbols osymbols).arc? e = some (0, a) := by
  obtain ⟨e, he⟩ := List.getElem?_of_mem ha
  exact ⟨e, by rw [arc?_editDistStd, he]; rfl⟩

/-- A path of the machine is a script. -/
theorem exists_edits_of_walk {p : List ℕ}
    (h : walk (editDistStd isymbols osymbols).ends 0 p = some 0) :
    ∃ n, Edits (ids isymbols) (ids osymbols) ((editDistStd isymbols osymbols).istring p)
        ((editDistStd isymbols osymbols).ostring p) n ∧
      (p.map fun e => (editDistStd isymbols osymbols).weightAt (some e)).prod =
        Tropical.trop (n : EReal) := by
  induction p with
  | nil => exact ⟨0, .nil, by rw [Nat.cast_zero]; rfl⟩
  | cons e p ih =>
    obtain ⟨a, ha, hwalk⟩ := VectorFst.walk_cons_arc_iff.mp h
    have hmem : a ∈ editArcs isymbols osymbols := by
      rw [arc?_editDistStd] at ha
      obtain ⟨b, hb, heq⟩ := Option.map_eq_some_iff.mp ha
      exact (Prod.mk.inj heq).2 ▸ List.mem_of_getElem? hb
    rw [VectorFst.istring_cons ha, VectorFst.ostring_cons ha, List.map_cons, List.prod_cons,
      VectorFst.weightAt_of_arc? ha]
    rcases mem_editArcs.mp hmem with ⟨x, hx, rfl⟩ | ⟨y, hy, rfl⟩ | ⟨x, hx, y, hy, rfl⟩
    · obtain ⟨n, hn, hprod⟩ := ih hwalk
      refine ⟨n + 1, ?_, ?_⟩
      · simpa [hx.1] using Edits.delete hx hn
      · rw [hprod, ← trop_natCast_mul, Nat.cast_one]
    · obtain ⟨n, hn, hprod⟩ := ih hwalk
      refine ⟨n + 1, ?_, ?_⟩
      · simpa [hy.1] using Edits.insert hy hn
      · rw [hprod, ← trop_natCast_mul, Nat.cast_one]
    · obtain ⟨n, hn, hprod⟩ := ih hwalk
      refine ⟨n + if x = y then 0 else 1, ?_, ?_⟩
      · simpa [hx.1, hy.1] using Edits.substitute hx hy hn
      · rw [hprod, ← trop_natCast_mul]

/-- One arc in front of a path of the machine. -/
theorem exists_walk_cons {a : Arc StdWeight} (ha : a ∈ editArcs isymbols osymbols) {p : List ℕ}
    (hp : walk (editDistStd isymbols osymbols).ends 0 p = some 0) :
    ∃ p', walk (editDistStd isymbols osymbols).ends 0 p' = some 0 ∧
      (editDistStd isymbols osymbols).istring p' =
        (if a.ilabel = 0 then [] else [a.ilabel]) ++ (editDistStd isymbols osymbols).istring p ∧
      (editDistStd isymbols osymbols).ostring p' =
        (if a.olabel = 0 then [] else [a.olabel]) ++ (editDistStd isymbols osymbols).ostring p ∧
      (p'.map fun e => (editDistStd isymbols osymbols).weightAt (some e)).prod =
        a.weight * (p.map fun e => (editDistStd isymbols osymbols).weightAt (some e)).prod := by
  have hnext : a.nextstate = 0 := by
    rcases mem_editArcs.mp ha with ⟨x, -, rfl⟩ | ⟨y, -, rfl⟩ | ⟨x, -, y, -, rfl⟩ <;> rfl
  obtain ⟨e, he⟩ := exists_arc?_of_mem ha
  refine ⟨e :: p, ?_, VectorFst.istring_cons he p, VectorFst.ostring_cons he p, ?_⟩
  · exact VectorFst.walk_cons_arc_iff.mpr ⟨a, he, hnext ▸ hp⟩
  · rw [List.map_cons, List.prod_cons, VectorFst.weightAt_of_arc? he]

/-- A script is a path of the machine. -/
theorem exists_walk_of_edits {s t : List ℤ} {n : ℕ}
    (h : Edits (ids isymbols) (ids osymbols) s t n) :
    ∃ p, walk (editDistStd isymbols osymbols).ends 0 p = some 0 ∧
      (editDistStd isymbols osymbols).istring p = s ∧
        (editDistStd isymbols osymbols).ostring p = t ∧
      (p.map fun e => (editDistStd isymbols osymbols).weightAt (some e)).prod =
        Tropical.trop (n : EReal) := by
  induction h with
  | nil => exact ⟨[], rfl, rfl, rfl, by rw [Nat.cast_zero]; rfl⟩
  | delete hx _ ih =>
    obtain ⟨p, hp, hi, ho, hw⟩ := ih
    obtain ⟨p', hp', hi', ho', hw'⟩ := exists_walk_cons (mem_editArcs.mpr (.inl ⟨_, hx, rfl⟩)) hp
    refine ⟨p', hp', ?_, ?_, ?_⟩
    · rw [hi', hi, if_neg hx.1, List.singleton_append]
    · rw [ho', ho, if_pos rfl, List.nil_append]
    · rw [hw', hw, ← trop_natCast_mul, Nat.cast_one]
  | insert hy _ ih =>
    obtain ⟨p, hp, hi, ho, hw⟩ := ih
    obtain ⟨p', hp', hi', ho', hw'⟩ :=
      exists_walk_cons (mem_editArcs.mpr (.inr (.inl ⟨_, hy, rfl⟩))) hp
    refine ⟨p', hp', ?_, ?_, ?_⟩
    · rw [hi', hi, if_pos rfl, List.nil_append]
    · rw [ho', ho, if_neg hy.1, List.singleton_append]
    · rw [hw', hw, ← trop_natCast_mul, Nat.cast_one]
  | substitute hx hy _ ih =>
    obtain ⟨p, hp, hi, ho, hw⟩ := ih
    obtain ⟨p', hp', hi', ho', hw'⟩ :=
      exists_walk_cons (mem_editArcs.mpr (.inr (.inr ⟨_, hx, _, hy, rfl⟩))) hp
    refine ⟨p', hp', ?_, ?_, ?_⟩
    · rw [hi', hi, if_neg hx.1, List.singleton_append]
    · rw [ho', ho, if_neg hy.1, List.singleton_append]
    · rw [hw', hw, ← trop_natCast_mul]

/-- The machine relates two strings with the costs of the scripts between them. -/
theorem relates_editDistStd {s t : List ℤ} {w : StdWeight} :
    (editDistStd isymbols osymbols).Relates s t w ↔
    ∃ n : ℕ, Edits (ids isymbols) (ids osymbols) s t n ∧ w = Tropical.trop (n : EReal) := by
  have hstart : (editDistStd isymbols osymbols).start = some 0 := by rw [editDistStd_eq]
  have hfinal : (editDistStd isymbols osymbols).final? 0 = some 1 := by rw [editDistStd_eq]; rfl
  have hweight (p : List ℕ) : (editDistStd isymbols osymbols).weight p 0 =
      (p.map fun e => (editDistStd isymbols osymbols).weightAt (some e)).prod := by
    rw [VectorFst.weight, VectorFst.finalAt, Option.bind_some, hfinal, Option.getD_some, mul_one]
  constructor
  · rintro ⟨p, q, ⟨q₀, hs, hwalk, hq⟩, rfl, rfl, rfl⟩
    obtain rfl := Option.some.inj (hstart.symm.trans hs)
    have h0 : q = 0 := by
      by_contra hne
      obtain ⟨n, rfl⟩ := Nat.exists_eq_succ_of_ne_zero hne
      rw [editDistStd_eq] at hq
      exact absurd hq (by simp [VectorFst.final?])
    subst h0
    obtain ⟨n, hn, hprod⟩ := exists_edits_of_walk hwalk
    exact ⟨n, hn, (hweight p).trans hprod⟩
  · rintro ⟨n, hn, rfl⟩
    obtain ⟨p, hp, hi, ho, hw⟩ := exists_walk_of_edits hn
    exact ⟨p, 0, ⟨0, hstart, hp, by simp [hfinal]⟩, hi, ho, (hweight p).trans hw⟩

/-- Between two machines that accept one string each the paths are the scripts. -/
theorem relates_between {comp : Composer} (hcomp : ∀ F G, IsComposition F G (comp F G))
    {A R : VectorFst StdWeight} {y z : List ℤ}
    (hA : ∀ {s t w}, A.Relates s t w ↔ s = y ∧ t = y ∧ w = 1)
    (hR : ∀ {s t w}, R.Relates s t w ↔ s = z ∧ t = z ∧ w = 1) {s t : List ℤ} {w : StdWeight} :
    (VectorFst.compose comp (VectorFst.compose comp A (editDistStd isymbols osymbols)) R).Relates s
      t w ↔
      s = y ∧ t = z ∧ ∃ n : ℕ, Edits (ids isymbols) (ids osymbols) y z n ∧
        w = Tropical.trop (n : EReal) := by
  rw [VectorFst.relates_compose (hcomp _ _)]
  simp only [VectorFst.relates_compose (hcomp _ _), hA, relates_editDistStd, hR]
  constructor
  · rintro ⟨_, _, _, ⟨_, _, _, ⟨rfl, rfl, rfl⟩, ⟨n, hn, rfl⟩, rfl⟩, ⟨rfl, rfl, rfl⟩, rfl⟩
    exact ⟨rfl, rfl, n, hn, by rw [one_mul, mul_one]⟩
  · rintro ⟨rfl, rfl, n, hn, rfl⟩
    exact ⟨_, _, _, ⟨_, _, _, ⟨rfl, rfl, rfl⟩, ⟨n, hn, rfl⟩, rfl⟩,
      ⟨rfl, rfl, rfl⟩, by rw [one_mul, mul_one]⟩

end StochasticEdit.Evaluation
