import StochasticEdit.Evaluation.Strings
import StochasticEdit.Features.Reader

/-! Which arcs of a decoded lattice get a label. The table of arc ids has one entry for
every feature, and what is looked up in it is the number of a machine arc, counted from
one. An arc whose number is not below the number of features gets the label -1, which
has no name. -/

namespace StochasticEdit.Evaluation

open Wfst Trainer Generator

/-! ### Lookups -/

section Table
variable {n k : ℕ}

theorem mem_keys_arcIdSymbolTable :
    toString k ++ " " ∈ (arcIdSymbolTable n).map Prod.fst ↔ k < n := by
  constructor
  · intro h
    obtain ⟨⟨key, v⟩, hmem, rfl⟩ := List.mem_map.mp h
    exact (mem_arcIdSymbolTable.mp hmem).1
  · intro h
    exact List.mem_map_of_mem (mem_arcIdSymbolTable.mpr ⟨h, rfl⟩)

/-- A failed lookup gives -1, -/
theorem findKey_arcIdSymbolTable_of_le (h : n ≤ k) :
    findKey (arcIdSymbolTable n) (toString (k : ℤ) ++ " ") = -1 := by
  rw [toString_natCast, findKey, symbolId]
  cases hl : (arcIdSymbolTable n).lookup (toString k ++ " ") with
  | none => rfl
  | some v => exact absurd (mem_arcIdSymbolTable.mp (mem_of_lookup_eq_some hl)).1 (Nat.not_lt.mpr h)

/-- which has no name. -/
theorem name_neg_one : name (arcIdSymbolTable n) (-1) = [] := by
  have hnone : findSymbol (arcIdSymbolTable n) (-1) = none := by
    rw [findSymbol, Option.map_eq_none_iff, List.find?_eq_none]
    intro p hp
    rw [arcIdSymbolTable, List.mem_cons, List.mem_map] at hp
    rw [decide_eq_true_iff]
    rcases hp with rfl | ⟨i, -, rfl⟩
    · decide
    · show (i : ℤ) ≠ -1
      omega
  rw [name, findText, hnone]
  rfl

theorem name_findKey : name (arcIdSymbolTable n)
    (findKey (arcIdSymbolTable n) (toString (k : ℤ) ++ " ")) =
    if k < n then (toString k ++ " ").toList else [] := by
  split_ifs with h
  · rw [findKey_arcIdSymbolTable h, name, findText_arcIdSymbolTable h]
  · rw [findKey_arcIdSymbolTable_of_le (Nat.le_of_not_lt h), name_neg_one]

theorem findKey_ne_zero : findKey (arcIdSymbolTable n) (toString (k : ℤ) ++ " ") ≠ 0 := by
  by_cases h : k < n
  · rw [findKey_arcIdSymbolTable h]
    omega
  · rw [findKey_arcIdSymbolTable_of_le (Nat.le_of_not_lt h)]
    decide

end Table

/-- Where `ids e` is the number that is looked up for the arc `e`: the key is in the table,
the arc gets a label that names it, and every arc of the best path is named in the result. -/
structure Complete (lib : Library) (ev : Evaluator) (final : VectorFst StdWeight)
    (ids : ℕ → ℕ) : Prop where
  present : ∀ e < final.numArcs, toString (ids e) ++ " " ∈
    (arcIdSymbolTable ev.numFeatures).map Prod.fst
  labelled : ∀ e q a, final.arc? e = some (q, a) → a.ilabel = a.olabel ∧ 0 ≤ a.olabel ∧
    findText (arcIdSymbolTable ev.numFeatures) a.olabel = toString (ids e) ++ " "
  kept : ∀ p, SelectsPath final (lib.shortestPath final) p →
    (ev.decoded lib final).1 = p.flatMap fun e => (toString (ids e) ++ " ").toList

/-! ### Relabelled machines -/

section Relabel
variable {W : Type*} {ev : Evaluator} {lib : Library} {S : VectorFst Origin}
  {f : Origin → FeatureWeight} {f' g' : Origin → StdWeight} {ids : ℕ → ℕ}
  (hids : ∀ e q a, S.arc? e = some (q, a) → roundExpNeg (value (f a.weight).value2) = ids e)

theorem flatMap_ostring {F : VectorFst W} {name : ℤ → List Char} {text : ℕ → List Char} {p : List ℕ}
    (h : ∀ e ∈ p, ∃ q a, F.arc? e = some (q, a) ∧ a.olabel ≠ 0 ∧ name a.olabel = text e) :
    (F.ostring p).flatMap name = p.flatMap text := by
  induction p with
  | nil => rfl
  | cons e p ih =>
    obtain ⟨q, a, ha, hne, htext⟩ := h e (by simp)
    rw [VectorFst.ostring_cons ha, if_neg hne, List.flatMap_append, List.flatMap_singleton, htext,
      ih fun e he => h e (by simp [he]), List.flatMap_cons]

include hids

/-- The label of an arc is the result of the lookup of its number. -/
theorem exists_arc_relabelled {e q : ℕ} {a : Arc StdWeight}
    (ha : (S.mapArcs (relabelled (arcIdSymbolTable ev.numFeatures) f f') g').arc? e = some (q, a)) :
    a.ilabel = a.olabel ∧
      a.olabel = findKey (arcIdSymbolTable ev.numFeatures) (toString ((ids e : ℕ) : ℤ) ++ " ") := by
  rw [VectorFst.arc?_mapArcs] at ha
  obtain ⟨⟨r, b⟩, hb, heq⟩ := Option.map_eq_some_iff.mp ha
  obtain ⟨-, rfl⟩ := Prod.mk.inj heq
  rw [← hids e r b hb]
  exact ⟨rfl, rfl⟩

/-- The result names the arcs of the path whose numbers are in the table. -/
theorem decoded_relabelled {p : List ℕ}
    (hp : SelectsPath (S.mapArcs (relabelled (arcIdSymbolTable ev.numFeatures) f f') g')
      (lib.shortestPath (S.mapArcs (relabelled (arcIdSymbolTable ev.numFeatures) f f') g')) p) :
    (ev.decoded lib (S.mapArcs (relabelled (arcIdSymbolTable ev.numFeatures) f f') g')).1 =
      p.flatMap fun e => if ids e < ev.numFeatures then (toString (ids e) ++ " ").toList
        else [] := by
  refine (hp.reverse_fstToString _).trans (flatMap_ostring fun e he => ?_)
  obtain ⟨r, hr⟩ := hp.accepts
  obtain ⟨q, a, ha⟩ := VectorFst.exists_arc_of_mem hr he
  obtain ⟨-, hlabel⟩ := exists_arc_relabelled hids ha
  exact ⟨q, a, ha, hlabel ▸ findKey_ne_zero, hlabel ▸ name_findKey⟩

/-- Nothing is lost if and only if the numbers of all arcs are below that of the features. -/
theorem complete_relabelled_iff :
    Complete lib ev (S.mapArcs (relabelled (arcIdSymbolTable ev.numFeatures) f f') g') ids ↔
      ∀ e < (S.mapArcs (relabelled (arcIdSymbolTable ev.numFeatures) f f') g').numArcs,
        ids e < ev.numFeatures := by
  constructor
  · intro h e he
    exact mem_keys_arcIdSymbolTable.mp (h.present e he)
  · intro h
    have hlt {e q : ℕ} {a : Arc StdWeight}
        (ha : (S.mapArcs (relabelled (arcIdSymbolTable ev.numFeatures) f f') g').arc? e =
          some (q, a)) :
        ids e < ev.numFeatures :=
      h e (VectorFst.lt_numArcs_of_arc? ha)
    refine ⟨fun e he => mem_keys_arcIdSymbolTable.mpr (h e he), fun e q a ha => ?_, fun p hp => ?_⟩
    · obtain ⟨hsame, hlabel⟩ := exists_arc_relabelled hids ha
      rw [hlabel, findKey_arcIdSymbolTable (hlt ha)] at hsame ⊢
      exact ⟨hsame, Int.natCast_nonneg _, findText_arcIdSymbolTable (hlt ha)⟩
    · rw [decoded_relabelled hids hp]
      refine List.flatMap_congr fun e he => ?_
      obtain ⟨r, hr⟩ := hp.accepts
      obtain ⟨q, a, ha⟩ := VectorFst.exists_arc_of_mem hr he
      exact if_pos (hlt ha)

end Relabel

/-! ### The two decoders -/

section Decoders
variable {F x y : VectorFst LogWeight} (lib : Library) (isymbols osymbols : List (Sym × ℤ)) (n : ℕ)
  (testData : List (VectorFst LogWeight × VectorFst LogWeight))

/-- What is looked up for the arcs of the lattice of `alignment_decode`. -/
noncomputable def lookedUp (F x : VectorFst LogWeight) (e : ℕ) : ℕ :=
  medialOwner lib.compose F x e + 1

/-- What is looked up for the arcs of the lattice of `alignment_decode_forced`. -/
noncomputable def lookedUpForced (F x y : VectorFst LogWeight) (e : ℕ) : ℕ :=
  owner lib.compose F (x, y) e + 1

end Decoders

/-! ### Tied features -/

section Tied

/-- A table in which all arcs share one feature. -/
def tiedFeatures : List Char := "0\t0\n1\t0\n2\t0\n3\t0\n4\t0\n5\t0\n6\t0\n".toList

theorem featureReader_tiedFeatures :
    Features.featureReader tiedFeatures = some ⟨List.replicate 7 [0], 0⟩ := rfl

/-- The operations on the machine of seven arcs; the best paths insert nothing, or the one
symbol that has to be inserted. -/
noncomputable def unigramLibrary : Library :=
  { compose := composeUnigram
    shortestPath := fun final =>
      backChain StdWeight
        ((if final.numStates = 3 then [0, 1] else [0, 1, 2]).filterMap final.labels?)
    reverse := id }

end Tied

end StochasticEdit.Evaluation
