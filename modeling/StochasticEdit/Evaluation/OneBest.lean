import StochasticEdit.Evaluation.EditMachine
import StochasticEdit.Evaluation.TestData
import StochasticEdit.Wfst.Product

/-! `one_best_edit`. The gold acceptor spells the gold text from left to right, but the
best output is reversed before the two are compared: what is added up are the distances
of the gold strings to the reversed outputs. -/

namespace StochasticEdit.Evaluation

open Wfst Trainer Generator Program Outcome
open Csv (Examples)

/-- `ShortestPath` keeps one accepting path of least weight with its strings, the second
of which is `z`. -/
def SelectsOutput (lib : Library) (final : VectorFst StdWeight) (z : List ℤ) : Prop :=
  ∃ s w, final.Relates s z w ∧
    (∀ s' t' w', final.Relates s' t' w' → Tropical.untrop w ≤ Tropical.untrop w') ∧
    ∀ s' t', (∃ w', (lib.shortestPath final).Relates s' t' w') ↔ s' = s ∧ t' = z

/-- The machine `R` accepts the reversed strings of `A`, with weights other than `Zero`. -/
structure Reverses (A R : VectorFst StdWeight) : Prop where
  relates : ∀ s t, (∃ w, R.Relates s t w) ↔ ∃ w, A.Relates s.reverse t.reverse w
  arcs : ∀ e q a, R.arc? e = some (q, a) → a.weight ≠ 0
  finals : ∀ q w, R.final? q = some w → w ≠ 0

/-! ### Projection and weights -/

theorem relates_projectOutput {F : VectorFst StdWeight} {s t : List ℤ} {w : StdWeight} :
    (projectOutput F).Relates s t w ↔ s = t ∧ ∃ s', F.Relates s' t w := by
  have haccepts {p : List ℕ} {q : ℕ} : (projectOutput F).AcceptsAt p q ↔ F.AcceptsAt p q := by
    rw [VectorFst.AcceptsAt, VectorFst.AcceptsAt, ends_projectOutput, final?_projectOutput]
    rfl
  have hweight (p : List ℕ) (q : ℕ) : (projectOutput F).weight p q = F.weight p q := by
    simp only [VectorFst.weight, weightAt_projectOutput, VectorFst.finalAt, Option.bind_some,
      final?_projectOutput]
  constructor
  · rintro ⟨p, q, hp, rfl, rfl, rfl⟩
    rw [(strings_projectOutput F p).1, (strings_projectOutput F p).2, hweight]
    exact ⟨rfl, F.istring p, p, q, haccepts.mp hp, rfl, rfl, rfl⟩
  · rintro ⟨rfl, s', p, q, hp, rfl, rfl, rfl⟩
    exact ⟨p, q, haccepts.mpr hp, (strings_projectOutput F p).1, (strings_projectOutput F p).2,
      hweight p q⟩

theorem relates_rmWeight {F : VectorFst StdWeight}
    (harcs : ∀ e q a, F.arc? e = some (q, a) → a.weight ≠ 0)
    (hfinals : ∀ q w, F.final? q = some w → w ≠ 0) {s t : List ℤ} {w : StdWeight} :
    (rmWeight F).Relates s t w ↔ w = 1 ∧ ∃ w', F.Relates s t w' := by
  have hweight : ∀ p q, (rmWeight F).weight p q = 1 := by
    apply VectorFst.weight_eq_one
    · intro e q a ha
      rw [rmWeight, VectorFst.arc?_map] at ha
      obtain ⟨⟨r, b⟩, hb, heq⟩ := Option.map_eq_some_iff.mp ha
      obtain ⟨-, rfl⟩ := Prod.mk.inj heq
      exact if_pos (harcs e r b hb)
    · intro q v hv
      rw [rmWeight, VectorFst.final?_map] at hv
      obtain ⟨u, hu, rfl⟩ := Option.map_eq_some_iff.mp hv
      exact if_pos (hfinals q u hu)
  constructor
  · rintro ⟨p, q, hp, rfl, rfl, rfl⟩
    exact ⟨hweight p q, _, p, q, (VectorFst.acceptsAt_map _ _ F).mp hp,
      (VectorFst.istring_map _ _ F p).symm, (VectorFst.ostring_map _ _ F p).symm, rfl⟩
  · rintro ⟨rfl, w', p, q, hp, rfl, rfl, -⟩
    exact ⟨p, q, (VectorFst.acceptsAt_map _ _ F).mpr hp, VectorFst.istring_map _ _ F p,
      VectorFst.ostring_map _ _ F p, hweight p q⟩

/-- After the reversal the best output is accepted backwards and at no cost. -/
theorem relates_reversed {lib : Library} {final : VectorFst StdWeight} {z : List ℤ}
    (hz : SelectsOutput lib final z)
    (hrev : Reverses (projectOutput (lib.shortestPath final))
      (lib.reverse (projectOutput (lib.shortestPath final))))
    {s t : List ℤ} {w : StdWeight} :
    (rmWeight (lib.reverse (projectOutput (lib.shortestPath final)))).Relates s t w ↔
      s = z.reverse ∧ t = z.reverse ∧ w = 1 := by
  obtain ⟨s₀, w₀, -, -, hpath⟩ := hz
  rw [relates_rmWeight hrev.arcs hrev.finals, hrev.relates]
  simp only [relates_projectOutput]
  constructor
  · rintro ⟨rfl, w', heq, s', hs'⟩
    obtain ⟨-, ht⟩ := (hpath s' t.reverse).mp ⟨w', hs'⟩
    rw [ht] at heq
    exact ⟨List.reverse_eq_iff.mp heq, List.reverse_eq_iff.mp ht, rfl⟩
  · rintro ⟨rfl, rfl, rfl⟩
    rw [List.reverse_reverse]
    obtain ⟨w', hw'⟩ := (hpath s₀ z).mpr ⟨rfl, rfl⟩
    exact ⟨rfl, w', rfl, s₀, hw'⟩

/-! ### The score of one pair -/

section Score
open scoped Classical

/-- The least cost of a script. -/
theorem sInf_edits (I O : Set ℤ) (s t : List ℤ) :
    sInf {c : EReal | ∃ n : ℕ, Edits I O s t n ∧ c = n} =
    if (∀ x ∈ s, x ∈ I) ∧ (∀ y ∈ t, y ∈ O) then (levenshtein s t : EReal) else ⊤ := by
  split_ifs with h
  · apply le_antisymm
    · exact sInf_le ⟨_, edits_levenshtein h.1 h.2, rfl⟩
    · refine le_sInf ?_
      rintro c ⟨n, hn, rfl⟩
      exact_mod_cast hn.levenshtein_le
  · rw [sInf_eq_top]
    rintro c ⟨n, hn, rfl⟩
    exact absurd ⟨hn.left_mem, hn.right_mem⟩ h

/-- Between two machines that accept one string each lies the distance of the strings, if the
tables have their symbols. -/
theorem shortestDistance_between {comp : Composer} (hcomp : ∀ F G, IsComposition F G (comp F G))
    {isymbols osymbols : List (Sym × ℤ)} {A R : VectorFst StdWeight} {y z : List ℤ}
    (hA : ∀ {s t w}, A.Relates s t w ↔ s = y ∧ t = y ∧ w = 1)
    (hR : ∀ {s t w}, R.Relates s t w ↔ s = z ∧ t = z ∧ w = 1) :
    shortestDistance
      (VectorFst.compose comp (VectorFst.compose comp A (editDistStd isymbols osymbols)) R) =
      if (∀ l ∈ y, l ∈ ids isymbols) ∧ (∀ l ∈ z, l ∈ ids osymbols) then (levenshtein y z : EReal)
        else ⊤ := by
  rw [← sInf_edits, shortestDistance]
  congr 1
  ext c
  simp only [relates_between hcomp hA hR, Set.mem_ofPred_eq]
  constructor
  · rintro ⟨s, t, -, -, n, hn, hc⟩
    exact ⟨n, hn, Tropical.trop_injective hc⟩
  · rintro ⟨n, hn, rfl⟩
    exact ⟨_, _, rfl, rfl, n, hn, rfl⟩

end Score

/-! ### The sum over the test data -/

section Sum
open scoped Classical

theorem sum_ite_top {ι : Type*} (P : ι → Prop) [DecidablePred P] (n : ι → ℕ) (l : List ι) :
    (l.map fun i => if P i then (n i : EReal) else ⊤).sum =
      if ∀ i ∈ l, P i then ((l.map n).sum : EReal) else ⊤ := by
  induction l with
  | nil => simp
  | cons i l ih =>
    rw [List.map_cons, List.sum_cons, ih]
    by_cases hi : P i <;> by_cases hl : ∀ j ∈ l, P j
    · rw [if_pos hi, if_pos hl, if_pos (List.forall_mem_cons.mpr ⟨hi, hl⟩), List.map_cons,
        List.sum_cons, Nat.cast_add]
    · rw [if_pos hi, if_neg hl, if_neg fun h => hl (List.forall_mem_cons.mp h).2]
      exact EReal.add_top_of_ne_bot (EReal.natCast_ne_bot _)
    · rw [if_neg hi, if_pos hl, if_neg fun h => hi (List.forall_mem_cons.mp h).1]
      exact EReal.top_add_of_ne_bot (EReal.natCast_ne_bot _)
    · rw [if_neg hi, if_neg hl, if_neg fun h => hi (List.forall_mem_cons.mp h).1]
      rfl

/-- What the loop adds for one pair. -/
noncomputable def Evaluator.pairScore (lib : Library) (ev : Evaluator)
    (p : VectorFst LogWeight × VectorFst LogWeight) : EReal :=
  shortestDistance (VectorFst.compose lib.compose
    (VectorFst.compose lib.compose (toStd p.2) ev.editDistStd)
    (rmWeight (lib.reverse (projectOutput (lib.shortestPath
      (VectorFst.compose lib.compose (toStd p.1) ev.fstStd))))))

theorem oneBestLoop_eq (lib : Library) (ev : Evaluator) (editDist : EReal)
    (data : List (VectorFst LogWeight × VectorFst LogWeight)) :
    ev.oneBestLoop lib editDist data = editDist + (data.map (ev.pairScore lib)).sum := by
  induction data generalizing editDist with
  | nil => exact (add_zero editDist).symm
  | cons p data ih =>
    rw [Evaluator.oneBestLoop, ih, List.map_cons, List.sum_cons, ← add_assoc]
    rfl

/-- The machine of the outputs for the input text `x`. -/
noncomputable def candidates (lib : Library) (fst : VectorFst LogWeight) (table : List (Sym × ℤ))
    (x : List Char) : VectorFst StdWeight :=
  VectorFst.compose lib.compose (toStd (textAcceptor table x)) (toStd fst)

/-- The best output for `x` is `z`. -/
structure Predicts (lib : Library) (fst : VectorFst LogWeight) (table : List (Sym × ℤ))
    (x : List Char) (z : List ℤ) : Prop where
  selects : SelectsOutput lib (candidates lib fst table x) z
  reverses : Reverses (projectOutput (lib.shortestPath (candidates lib fst table x)))
    (lib.reverse (projectOutput (lib.shortestPath (candidates lib fst table x))))

section Main
variable {lib : Library} (hcomp : ∀ F G, IsComposition F G (lib.compose F G))
  {fst : VectorFst LogWeight} {upper lower : List (Sym × ℤ)} (hids : ids upper = ids lower)
  (numFeatures : ℕ) {pairs : List (List Char × List Char)} {z : List Char → List ℤ}
  (hz : ∀ p ∈ pairs, Predicts lib fst upper p.1 (z p.1))

include hcomp hids hz

/-- What `one_best_edit` returns. -/
theorem oneBestEdit_eq : (evaluator fst upper lower numFeatures
      (pairs.map fun p => (textAcceptor upper p.1, textAcceptor lower p.2))).oneBestEdit lib =
    if ∀ p ∈ pairs, (∀ l ∈ spelling lower p.2, l ∈ ids lower) ∧ ∀ l ∈ z p.1, l ∈ ids lower then
      ((pairs.map fun p => levenshtein (spelling lower p.2) (z p.1).reverse).sum : EReal)
        else ⊤ := by
  rw [Evaluator.oneBestEdit, oneBestLoop_eq, zero_add, evaluator, List.map_map, ← sum_ite_top]
  congr 1
  refine List.map_congr_left fun p hp => ?_
  refine (shortestDistance_between hcomp relates_textAcceptor
    (relates_reversed (hz p hp).selects (hz p hp).reverses)).trans ?_
  simp only [hids, List.mem_reverse]

/-- `one_best_edit` returns the distances of the gold strings to the best outputs just
when their characters are in the table and reversing the outputs does not change the sum
of the distances. -/
theorem oneBestEdit_eq_iff {data : Examples}
    {testData : List (VectorFst LogWeight × VectorFst LogWeight)}
    (hcount : data.count = pairs.length) (hcomma : ∀ p ∈ pairs, ',' ∉ p.1 ∧ ',' ∉ p.2)
    (hlines : ∀ (k : ℕ) (p : List Char × List Char), pairs[k]? = some p →
      (data.text.splitOn '\n')[k]? = some (p.1 ++ ',' :: p.2))
    (hdata : readTestData data upper lower = .value testData) :
    (evaluator fst upper lower numFeatures testData).oneBestEdit lib =
        ((pairs.map fun p => levenshtein (spelling lower p.2) (z p.1)).sum : EReal) ↔
      (∀ p ∈ pairs, (∀ l ∈ spelling lower p.2, l ∈ ids lower) ∧ ∀ l ∈ z p.1, l ∈ ids lower) ∧
        (pairs.map fun p => levenshtein (spelling lower p.2) (z p.1).reverse).sum =
          (pairs.map fun p => levenshtein (spelling lower p.2) (z p.1)).sum := by
  rw [readTestData_eq hcount hcomma hlines hdata, oneBestEdit_eq hcomp hids numFeatures hz]
  split_ifs with h
  · rw [Nat.cast_inj]
    exact ⟨fun hsum => ⟨h, hsum⟩, fun hsum => hsum.2⟩
  · exact ⟨fun htop => absurd htop.symm (EReal.natCast_ne_top _), fun hsum => absurd hsum.1 h⟩

end Main

end Sum

/-! ### The identity over two letters -/

section Identity

def lettersTable : List (Sym × ℤ) := [("<eps>", 0), ("a", 1), ("b", 2)]

noncomputable def identityFst : VectorFst LogWeight :=
  ⟨some 0, [⟨some 1, [⟨1, 1, 1, 0⟩, ⟨2, 2, 1, 0⟩]⟩]⟩

/-- The library on the input `ab`. -/
noncomputable def lettersLibrary : Library where
  compose := product
  shortestPath _ := linear StdWeight [(1, 1), (2, 2)]
  reverse _ := linear StdWeight [(2, 2), (1, 1)]

theorem isComposition_letters (F G : VectorFst Unit) : IsComposition F G
    (lettersLibrary.compose F G) :=
  isComposition_product F G

theorem selectsOutput_letters :
    SelectsOutput lettersLibrary (candidates lettersLibrary identityFst lettersTable ['a', 'b'])
      [1, 2] := by
  have hone : ∀ p q, (toStd identityFst).weight p q = 1 := by
    apply VectorFst.weight_eq_one
    · intro e q a h
      match e with
      | 0 | 1 =>
        cases h
        exact convertWeight_one
      | e + 2 => cases h
    · intro q w h
      match q with
      | 0 =>
        cases h
        exact convertWeight_one
      | q + 1 => cases h
  have hrelates {s t : List ℤ} {w : StdWeight}
      (h : (candidates lettersLibrary identityFst lettersTable ['a', 'b']).Relates s t w) :
          w = 1 := by
    rw [candidates, VectorFst.relates_compose (isComposition_letters _ _)] at h
    obtain ⟨u, w₁, w₂, hinput, ⟨p, q, -, -, -, hw⟩, rfl⟩ := h
    rw [(relates_textAcceptor.mp hinput).2.2, ← hw, hone, one_mul]
  refine ⟨[1, 2], 1, ?_, ?_, ?_⟩
  · rw [candidates, VectorFst.relates_compose (isComposition_letters _ _)]
    exact ⟨[1, 2], 1, 1, relates_textAcceptor.mpr ⟨rfl, rfl, rfl⟩,
      ⟨[0, 1], 0, ⟨0, rfl, rfl, rfl⟩, rfl, rfl, hone _ _⟩, (one_mul 1).symm⟩
  · intro s t w h
    rw [hrelates h]
  · intro s t
    constructor
    · rintro ⟨w, hw⟩
      obtain ⟨rfl, rfl, -⟩ := relates_linear.mp hw
      exact ⟨rfl, rfl⟩
    · rintro ⟨rfl, rfl⟩
      exact ⟨1, relates_linear.mpr ⟨rfl, rfl, rfl⟩⟩

theorem stdWeight_one_ne_zero : (1 : StdWeight) ≠ 0 :=
  fun h => EReal.zero_ne_top (Tropical.trop_injective h)

theorem predicts_letters : Predicts lettersLibrary identityFst lettersTable ['a', 'b'] [1, 2] where
  selects := selectsOutput_letters
  reverses :=
    { relates := by
        intro s t
        simp only [relates_projectOutput]
        constructor
        · rintro ⟨w, hw⟩
          obtain ⟨rfl, rfl, rfl⟩ := relates_linear.mp hw
          exact ⟨1, rfl, [1, 2], relates_linear.mpr ⟨rfl, rfl, rfl⟩⟩
        · rintro ⟨w, heq, s', hw⟩
          obtain ⟨-, ht, -⟩ := relates_linear.mp hw
          refine ⟨1, relates_linear.mpr ⟨?_, ?_, rfl⟩⟩
          · exact List.reverse_eq_iff.mp (heq.trans ht)
          · exact List.reverse_eq_iff.mp ht
      arcs := by
        intro e q a h
        match e with
        | 0 | 1 =>
          cases h
          exact stdWeight_one_ne_zero
        | e + 2 => cases h
      finals := by
        intro q w h
        match q with
        | 0 | 1 => cases h
        | 2 =>
          cases h
          exact stdWeight_one_ne_zero
        | q + 3 => cases h }

def lettersPairs : List (List Char × List Char) := [(['a', 'b'], ['a', 'b'])]

def lettersFile : Examples := ⟨"ab,ab\n".toList, 1, .rightToLeft⟩

theorem predicts_lettersPairs :
    ∀ p ∈ lettersPairs, Predicts lettersLibrary identityFst lettersTable p.1 [1, 2] := by
  intro p hp
  obtain rfl := List.mem_singleton.mp hp
  exact predicts_letters

theorem getElem?_lettersFile (k : ℕ) (p : List Char × List Char) (h : lettersPairs[k]? = some p) :
    (lettersFile.text.splitOn '\n')[k]? = some (p.1 ++ ',' :: p.2) := by
  match k with
  | 0 =>
    cases h
    decide
  | k + 1 => cases h

theorem readTestData_letters : readTestData lettersFile lettersTable lettersTable =
    .value (lettersPairs.map fun p =>
      (textAcceptor lettersTable p.1, textAcceptor lettersTable p.2)) := by
  rw [readTestData_eq_mapM rfl (by decide) getElem?_lettersFile, mapM_convert, if_pos (by decide),
    orUndefined]

/-- The output `ab` is compared backwards with the gold text `ab`. -/
theorem oneBestEdit_letters : ∃ testData,
    readTestData lettersFile lettersTable lettersTable = .value testData ∧
    (evaluator identityFst lettersTable lettersTable 0 testData).oneBestEdit lettersLibrary ≠
      ((lettersPairs.map fun p => levenshtein (spelling lettersTable p.2) [1, 2]).sum : EReal) := by
  refine ⟨_, readTestData_letters, fun h => ?_⟩
  have hsum := ((oneBestEdit_eq_iff (z := fun _ => [1, 2]) isComposition_letters rfl 0
    predicts_lettersPairs rfl
    (by decide) getElem?_lettersFile readTestData_letters).mp h).2
  exact absurd hsum (by decide)

theorem oneBestEdit_ne :
    ¬ ∀ (lib : Library) (fst : VectorFst LogWeight) (upper lower : List (Sym × ℤ))
    (numFeatures : ℕ) (data : Examples) (pairs : List (List Char × List Char))
    (testData : List (VectorFst LogWeight × VectorFst LogWeight)) (z : List Char → List ℤ),
    (∀ F G, IsComposition F G (lib.compose F G)) → ids upper = ids lower →
    (∀ p ∈ pairs, Predicts lib fst upper p.1 (z p.1)) → data.count = pairs.length →
    (∀ p ∈ pairs, ',' ∉ p.1 ∧ ',' ∉ p.2) →
    (∀ (k : ℕ) (p : List Char × List Char), pairs[k]? = some p →
      (data.text.splitOn '\n')[k]? = some (p.1 ++ ',' :: p.2)) →
    readTestData data upper lower = .value testData →
    (evaluator fst upper lower numFeatures testData).oneBestEdit lib =
      ((pairs.map fun p => levenshtein (spelling lower p.2) (z p.1)).sum : EReal) := by
  intro h
  have hclaim := h lettersLibrary identityFst lettersTable lettersTable 0 lettersFile lettersPairs _
    (fun _ => [1, 2]) isComposition_letters rfl predicts_lettersPairs rfl (by decide)
    getElem?_lettersFile readTestData_letters
  rw [oneBestEdit_eq (z := fun _ => [1, 2]) isComposition_letters rfl 0
    predicts_lettersPairs] at hclaim
  split_ifs at hclaim
  · exact absurd (Nat.cast_injective hclaim) (by decide)
  · exact EReal.natCast_ne_top _ hclaim.symm

end Identity

end StochasticEdit.Evaluation
