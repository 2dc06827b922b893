import StochasticEdit.Evaluation.EditMachine
import StochasticEdit.Wfst.Exponential
import StochasticEdit.Wfst.Mass
import StochasticEdit.Wfst.Product

/-! The expected edit distance. The loop composes the lattice of an input with the gold
output before the edit machine sees it, and the edit machine of the log semiring adds over
all scripts. So what it returns for a pair is made of the probability of the gold output
and of the scripts from the gold output to itself. -/

namespace StochasticEdit.Evaluation

open Wfst Trainer Generator
open scoped ENNReal NNReal NNRat

/-! ### The edit machine of the log semiring -/

/-- The weight of a LogArc with the cost of a StdArc. -/
noncomputable def logWeight (w : StdWeight) : LogWeight := ofValue (Tropical.untrop w)

/-- `edit_dist_log`, which the constructor fills in the same loops with the same labels
and costs. -/
noncomputable def editDistLog (isymbols osymbols : List (Sym × ℤ)) : VectorFst LogWeight :=
  (editDistStd isymbols osymbols).map logWeight logWeight

/-- The weight of an operation that costs one. -/
noncomputable def unitCost : LogWeight := ofValue 1

section Machine
variable {isymbols osymbols table : List (Sym × ℤ)}

theorem logWeight_zero : logWeight (Tropical.trop ((0 : ℕ) : EReal)) = 1 := by
  rw [logWeight, Tropical.untrop_trop, Nat.cast_zero, ofValue, neg_zero, EReal.exp_zero]

theorem logWeight_one : logWeight (Tropical.trop ((1 : ℕ) : EReal)) = unitCost := by
  rw [logWeight, Tropical.untrop_trop, Nat.cast_one, unitCost]

theorem editDistLog_eq : editDistLog isymbols osymbols =
    ⟨some 0, [⟨some 1, (editArcs isymbols osymbols).map (Arc.map logWeight)⟩]⟩ := by
  have hone : logWeight 1 = 1 := by
    have hzero := logWeight_zero
    rwa [Nat.cast_zero] at hzero
  rw [editDistLog, editDistStd_eq, VectorFst.map, List.map_singleton, State.map,
    Option.map_some, hone]

/-! ### Its paths -/

/-- A table has every id but zero once. -/
theorem sum_idList (hnodup : (idList table).Nodup) {f : ℤ → ℝ≥0∞} {x : ℤ}
    (hf : ∀ y, y ≠ x → f y = 0) [Decidable (x ∈ ids table)] :
    ((idList table).map f).sum = if x ∈ ids table then f x else 0 := by
  have hcount : (idList table).count x = if x ∈ idList table then 1 else 0 := hnodup.count
  rw [List.sum_map_eq_nsmul_single x f fun y hy _ => hf y hy, hcount]
  by_cases hx : x ∈ ids table
  · rw [if_pos hx, if_pos (mem_idList.mpr hx), one_nsmul]
  · rw [if_neg hx, if_neg fun h => hx (mem_idList.mp h), zero_nsmul]

theorem sum_map_flatMap {α β : Type*} (l : List α) (f : α → List β) (g : β → ℝ≥0∞) :
    ((l.flatMap f).map g).sum = (l.map fun x => ((f x).map g).sum).sum := by
  induction l with
  | nil => rfl
  | cons x l ih =>
    rw [List.flatMap_cons, List.map_append, List.sum_append, ih, List.map_cons, List.sum_cons]

theorem word_eq {x : ℤ} (hx : x ∈ idList table) : VectorFst.word x = [x] := by
  rw [VectorFst.word, if_neg (mem_idList.mp hx).1]

/-- The first operation of a script: a deletion, an insertion or a substitution. -/
theorem mass_editDistLog (s t : List ℤ) : (editDistLog isymbols osymbols).mass s t =
    (if s = [] ∧ t = [] then 1 else 0) +
      (((idList isymbols).map fun x =>
        unitCost * (editDistLog isymbols osymbols).massAfter [x] [] s t).sum +
        ((idList osymbols).map fun y =>
          unitCost * (editDistLog isymbols osymbols).massAfter [] [y] s t).sum +
        ((idList isymbols).map fun x =>
          ((idList osymbols).map fun y => (if x = y then 1 else unitCost) *
          (editDistLog isymbols osymbols).massAfter [x] [y] s t).sum).sum) := by
  have hnext : ∀ a ∈ (editArcs isymbols osymbols).map (Arc.map logWeight), a.nextstate = 0 := by
    intro a ha
    obtain ⟨b, hb, rfl⟩ := List.mem_map.mp ha
    rcases mem_editArcs.mp hb with ⟨x, -, rfl⟩ | ⟨y, -, rfl⟩ | ⟨x, -, y, -, rfl⟩ <;> rfl
  have hzero : VectorFst.word 0 = [] := rfl
  have hcost (x y : ℤ) : logWeight (Tropical.trop ((if x = y then 0 else 1 : ℕ) : EReal)) =
      if x = y then 1 else unitCost := by
    split_ifs
    · exact logWeight_zero
    · exact logWeight_one
  rw [VectorFst.mass_loops editDistLog_eq hnext, editArcs, List.map_map, List.map_append,
    List.map_append,
    List.sum_append, List.sum_append, deletions_eq, insertions_eq, substitutions_eq, List.map_map,
      List.map_map, sum_map_flatMap]
  refine congrArg (_ + ·) (congrArg₂ (· + ·) (congrArg₂ (· + ·) ?_ ?_) ?_)
  · refine congrArg List.sum (List.map_congr_left fun x hx => ?_)
    simp only [Function.comp_apply, Arc.map_weight, Arc.map_ilabel, Arc.map_olabel]
    rw [word_eq hx, hzero, logWeight_one]
  · refine congrArg List.sum (List.map_congr_left fun y hy => ?_)
    simp only [Function.comp_apply, Arc.map_weight, Arc.map_ilabel, Arc.map_olabel]
    rw [word_eq hy, hzero, logWeight_one]
  · refine congrArg List.sum (List.map_congr_left fun x hx => ?_)
    rw [List.map_map]
    refine congrArg List.sum (List.map_congr_left fun y hy => ?_)
    simp only [Function.comp_apply, Arc.map_weight, Arc.map_ilabel, Arc.map_olabel]
    rw [word_eq hx, word_eq hy, hcost]

end Machine

section Scripts
open scoped Classical

variable {isymbols osymbols table : List (Sym × ℤ)}

theorem mass_edit_nil_nil : (editDistLog isymbols osymbols).mass [] [] = 1 := by
  rw [mass_editDistLog]
  simp [VectorFst.massAfter_left_nil, VectorFst.massAfter_right_nil]

theorem mass_edit_cons_nil (hi : (idList isymbols).Nodup) (x : ℤ) (xs : List ℤ) :
    (editDistLog isymbols osymbols).mass (x :: xs) [] =
      if x ∈ ids isymbols then unitCost * (editDistLog isymbols osymbols).mass xs [] else 0 := by
  rw [mass_editDistLog]
  simp only [VectorFst.massAfter_left, VectorFst.massAfter_right_nil, mul_zero, List.sum_map_zero]
  rw [sum_idList hi (x := x) fun y hy => by rw [if_neg hy, mul_zero], if_pos rfl,
    if_neg fun h => List.cons_ne_nil x xs h.1, zero_add, add_zero, add_zero]

theorem mass_edit_nil_cons (ho : (idList osymbols).Nodup) (y : ℤ) (ys : List ℤ) :
    (editDistLog isymbols osymbols).mass [] (y :: ys) =
      if y ∈ ids osymbols then unitCost * (editDistLog isymbols osymbols).mass [] ys else 0 := by
  rw [mass_editDistLog]
  simp only [VectorFst.massAfter_right, VectorFst.massAfter_left_nil, mul_zero, List.sum_map_zero]
  rw [sum_idList ho (x := y) fun x hx => by rw [if_neg hx, mul_zero], if_pos rfl,
    if_neg fun h => List.cons_ne_nil y ys h.2, zero_add, zero_add, add_zero]

section Tables
variable (hi : (idList isymbols).Nodup) (ho : (idList osymbols).Nodup)

include hi ho

theorem mass_edit_cons_cons (x y : ℤ) (xs ys : List ℤ) :
    (editDistLog isymbols osymbols).mass (x :: xs) (y :: ys) =
      (if x ∈ ids isymbols then unitCost *
        (editDistLog isymbols osymbols).mass xs (y :: ys) else 0) +
        ((if y ∈ ids osymbols then unitCost *
          (editDistLog isymbols osymbols).mass (x :: xs) ys else 0) +
          if x ∈ ids isymbols ∧ y ∈ ids osymbols then
            (if x = y then 1 else unitCost) * (editDistLog isymbols osymbols).mass xs ys
              else 0) := by
  rw [mass_editDistLog]
  simp only [VectorFst.massAfter_left, VectorFst.massAfter_right, VectorFst.massAfter_both]
  have hrow (x' : ℤ) : ((idList osymbols).map fun y' => (if x' = y' then 1 else unitCost) *
      if x' = x ∧ y' = y then (editDistLog isymbols osymbols).mass xs ys else 0).sum =
        if x' = x ∧ y ∈ ids osymbols then
          (if x' = y then 1 else unitCost) * (editDistLog isymbols osymbols).mass xs ys else 0 := by
    rw [sum_idList ho (x := y) fun y' hy => by
      rw [if_neg fun h : x' = x ∧ y' = y => hy h.2, mul_zero]]
    by_cases hx : x' = x <;> by_cases hy : y ∈ ids osymbols <;> simp [hx, hy]
  simp only [hrow]
  rw [sum_idList hi (x := x) fun x' hx => by rw [if_neg hx, mul_zero], if_pos rfl,
    sum_idList ho (x := y) fun y' hy => by rw [if_neg hy, mul_zero], if_pos rfl,
    sum_idList hi (x := x) fun x' hx => if_neg fun h => hx h.1,
    if_neg fun h => List.cons_ne_nil x xs h.1, zero_add, add_assoc]
  by_cases hx : x ∈ ids isymbols <;> by_cases hy : y ∈ ids osymbols <;> simp [hx, hy]

/-- Over the tables the paths of the machine are the scripts between the strings. -/
theorem mass_scripts_eq {s t : List ℤ} (hs : ∀ x ∈ s, x ∈ ids isymbols)
    (ht : ∀ y ∈ t, y ∈ ids osymbols) :
    (editDistLog isymbols osymbols).mass s t = scriptSum unitCost s t := by
  induction s generalizing t with
  | nil =>
    induction t with
    | nil => exact mass_edit_nil_nil
    | cons y ys ih =>
      rw [mass_edit_nil_cons ho, if_pos (ht y (by simp)), ih fun z hz => ht z (by simp [hz]),
        scriptSum_nil_cons]
  | cons x xs ih =>
    have hx := hs x (by simp)
    have hxs : ∀ z ∈ xs, z ∈ ids isymbols := fun z hz => hs z (by simp [hz])
    induction t with
    | nil => rw [mass_edit_cons_nil hi, if_pos hx, ih hxs ht, scriptSum_cons_nil]
    | cons y ys ih' =>
      have hy := ht y (by simp)
      have hys : ∀ z ∈ ys, z ∈ ids osymbols := fun z hz => ht z (by simp [hz])
      rw [mass_edit_cons_cons hi ho, if_pos hx, if_pos hy, if_pos ⟨hx, hy⟩, ih hxs ht,
        ih' hys, ih hxs hys, scriptSum_cons_cons]

/-- A symbol that the input table lacks has no operation. -/
theorem mass_scripts_eq_zero {s : List ℤ} (hs : ∃ x ∈ s, x ∉ ids isymbols) (t : List ℤ) :
    (editDistLog isymbols osymbols).mass s t = 0 := by
  induction s generalizing t with
  | nil =>
    obtain ⟨x, hx, -⟩ := hs
    contradiction
  | cons x xs ih =>
    have hrest (hx : x ∈ ids isymbols) (t : List ℤ) :
        (editDistLog isymbols osymbols).mass xs t = 0 := by
      apply ih
      obtain ⟨z, hz, hno⟩ := hs
      rcases List.mem_cons.mp hz with rfl | hz
      · exact absurd hx hno
      · exact ⟨z, hz, hno⟩
    have hfirst (c : LogWeight) (t : List ℤ) {P : Prop} [Decidable P] (hP : P → x ∈ ids isymbols) :
        (if P then c * (editDistLog isymbols osymbols).mass xs t else 0) = 0 := by
      split_ifs with h
      · rw [hrest (hP h), mul_zero]
      · rfl
    induction t with
    | nil => rw [mass_edit_cons_nil hi, hfirst _ _ id]
    | cons y ys ih' =>
      rw [mass_edit_cons_cons hi ho, ih', hfirst _ _ id, hfirst _ _ And.left, mul_zero,
        ite_self, zero_add, zero_add]

end Tables

variable (hnodup : (idList table).Nodup)

include hnodup

theorem mass_edit_eq {s t : List ℤ} (hs : ∀ x ∈ s, x ∈ ids table) (ht : ∀ y ∈ t, y ∈ ids table) :
    (editDistLog table table).mass s t = scriptSum unitCost s t :=
  mass_scripts_eq hnodup hnodup hs ht

theorem mass_edit_eq_zero {s : List ℤ} (hs : ∃ x ∈ s, x ∉ ids table) (t : List ℤ) :
    (editDistLog table table).mass s t = 0 :=
  mass_scripts_eq_zero hnodup hnodup hs t

end Scripts

/-! ### The loop -/

/-- The evaluator with both edit machines. -/
structure LogEvaluator extends Evaluator where
  editDistLog : VectorFst LogWeight

noncomputable def logEvaluator (fst : VectorFst LogWeight) (isymbols osymbols : List (Sym × ℤ))
    (numFeatures : ℕ) (testData : List (VectorFst LogWeight × VectorFst LogWeight)) :
    LogEvaluator :=
  { evaluator fst isymbols osymbols numFeatures
    testData with editDistLog := editDistLog isymbols osymbols }

section Loop
variable (comp : Composer) (arcSort : VectorFst LogWeight → VectorFst LogWeight)

/-- `final` of the loop, after `Project` and `ArcSort`. -/
noncomputable def sortedFinal (fst inputFst outputFst : VectorFst LogWeight) :
    VectorFst LogWeight :=
  let medial := VectorFst.compose comp inputFst fst
  let final := VectorFst.compose comp medial outputFst
  arcSort (projectOutput final)

/-- The loop of `expected_edit_distance`. -/
noncomputable def LogEvaluator.expectedLoop (ev : LogEvaluator) : EReal →
    List (VectorFst LogWeight × VectorFst LogWeight) → EReal
  | editDist, [] => editDist
  | editDist, (inputFst, outputFst) :: rest =>
    let final := sortedFinal comp arcSort ev.fst inputFst outputFst
    let preFinalEdit := VectorFst.compose comp final ev.editDistLog
    let finalEdit := VectorFst.compose comp preFinalEdit outputFst
    LogEvaluator.expectedLoop ev (editDist + value finalEdit.shortestDistance) rest

noncomputable def LogEvaluator.expectedEditDistance (ev : LogEvaluator) : EReal :=
  ev.expectedLoop comp arcSort 0 ev.testData

end Loop

/-- The acceptor of a gold string. -/
noncomputable def goldFst (y : List ℤ) : VectorFst LogWeight :=
  linear LogWeight (y.map fun l => (l, l))

/-- The expected distance from `y` to what the paths of a lattice write. -/
noncomputable def expectedDistance (lattice : VectorFst LogWeight) (y : List ℤ) : ℝ≥0∞ :=
  tsum fun z => lattice.outputMass z * levenshtein y z

/-- A test pair whose lattice has finitely many paths with total probability 1, and whose
machines are composed exactly. -/
structure TestPair (comp : Composer) (arcSort : VectorFst LogWeight → VectorFst LogWeight)
    (fst : VectorFst LogWeight) (table : List (Sym × ℤ))
    (p : VectorFst LogWeight × List ℤ) : Prop where
  letters : ∀ l ∈ p.2, l ≠ 0
  finite : {q | (VectorFst.compose comp p.1 fst).Accepts q}.Finite
  total : (VectorFst.compose comp p.1 fst).shortestDistance = 1
  final : VectorFst.Exact comp (VectorFst.compose comp p.1 fst) (goldFst p.2)
  preFinalEdit : VectorFst.Exact comp (sortedFinal comp arcSort fst p.1 (goldFst p.2))
    (editDistLog table table)
  finalEdit : VectorFst.Exact comp
    (VectorFst.compose comp (sortedFinal comp arcSort fst p.1 (goldFst p.2))
    (editDistLog table table)) (goldFst p.2)

section Pair
variable {comp : Composer} {arcSort : VectorFst LogWeight → VectorFst LogWeight}
  {fst : VectorFst LogWeight}
  {table : List (Sym × ℤ)} {p : VectorFst LogWeight × List ℤ} {y : List ℤ}

theorem mass_goldFst (hy : ∀ l ∈ y, l ≠ 0) (s t : List ℤ) :
    (goldFst y).mass s t = if s = y ∧ t = y then 1 else 0 := by
  have hfilter : y.filter (· ≠ 0) = y := List.filter_eq_self.mpr fun l hl =>
    decide_eq_true (hy l hl)
  have hmap : (y.map fun l => (l, l)).map Prod.fst = y := (List.map_map ..).trans (List.map_id y)
  have hmap' : (y.map fun l => (l, l)).map Prod.snd = y := (List.map_map ..).trans (List.map_id y)
  rw [goldFst, VectorFst.mass_linear, hmap, hmap', hfilter]

/-- A composition with the acceptor of `y` keeps the paths that write `y`. -/
theorem tsum_mass_goldFst (hy : ∀ l ∈ y, l ≠ 0) (f : List ℤ → ℝ≥0∞) (t : List ℤ) :
    (tsum fun u => f u * (goldFst y).mass u t) = if t = y then f y else 0 := by
  simp only [mass_goldFst hy]
  rw [tsum_eq_single y]
  · by_cases ht : t = y <;> simp [ht]
  · exact fun u hu => by rw [if_neg fun h => hu h.1, mul_zero]

theorem mass_projectOutput (F : VectorFst LogWeight) (s t : List ℤ) :
    (projectOutput F).mass s t = if s = t then F.outputMass t else 0 := by
  have hvalue : (projectOutput F).value = F.value := by
    have hweight : (projectOutput F).arcWeight = F.arcWeight :=
      funext fun e => weightAt_projectOutput F (some e)
    have hfinal : (projectOutput F).finalWeight = F.finalWeight := by
      funext q
      rw [VectorFst.finalWeight, VectorFst.finalWeight, final?_projectOutput]
    funext q
    rw [VectorFst.value, VectorFst.value, ends_projectOutput, hweight, hfinal]
    rfl
  rw [VectorFst.mass, VectorFst.outputMass_eq, hvalue]
  simp only [(strings_projectOutput F _).1, (strings_projectOutput F _).2]
  split_ifs with h
  · refine tsum_congr fun q => if_congr ?_ rfl rfl
    rw [h, and_self]
  · refine ENNReal.tsum_eq_zero.mpr fun q => if_neg ?_
    exact fun hst => h (hst.1.symm.trans hst.2)

variable (hsort : ∀ F, VectorFst.SameArcs F (arcSort F))

section Gold
variable {x F : VectorFst LogWeight} (hy : ∀ l ∈ y, l ≠ 0)
  (hexact : VectorFst.Exact comp (VectorFst.compose comp x fst) (goldFst y))

include hy hexact

/-- The lattice of the gold output has the paths that write it. -/
theorem mass_lattice_gold (u v : List ℤ) :
    (VectorFst.compose comp (VectorFst.compose comp x fst) (goldFst y)).mass u v =
      if v = y then (VectorFst.compose comp x fst).mass u y else 0 := by
  rw [VectorFst.mass_compose hexact, tsum_mass_goldFst hy]

include hsort in
/-- Before the edit machine only the gold output is left, with its probability. -/
theorem mass_sortedFinal (s t : List ℤ) : (sortedFinal comp arcSort fst x (goldFst y)).mass s t =
    if s = y ∧ t = y then (VectorFst.compose comp x fst).outputMass y else 0 := by
  rw [sortedFinal, VectorFst.mass_sameArcs (hsort _), mass_projectOutput, VectorFst.outputMass]
  simp only [mass_lattice_gold hy hexact]
  by_cases ht : t = y
  · simp only [ht, if_true, and_true]
    rfl
  · simp [ht]

include hsort in
/-- What the loop adds for a pair, with the edit machine `F`. -/
theorem shortestDistance_edits
    (hpre : VectorFst.Exact comp (sortedFinal comp arcSort fst x (goldFst y)) F)
    (hfinal : VectorFst.Exact comp
      (VectorFst.compose comp (sortedFinal comp arcSort fst x (goldFst y)) F) (goldFst y)) :
    (VectorFst.compose comp (VectorFst.compose comp (sortedFinal comp arcSort fst x (goldFst y)) F)
      (goldFst y)).shortestDistance = (VectorFst.compose comp x fst).outputMass y * F.mass y y := by
  have hedits (u v : List ℤ) :
      (VectorFst.compose comp (sortedFinal comp arcSort fst x (goldFst y)) F).mass u v =
      if u = y then (VectorFst.compose comp x fst).outputMass y * F.mass y v else 0 := by
    rw [VectorFst.mass_compose hpre, tsum_eq_single y]
    · rw [mass_sortedFinal hsort hy hexact]
      by_cases hu : u = y <;> simp [hu]
    · intro w hw
      rw [mass_sortedFinal hsort hy hexact, if_neg fun hboth => hw hboth.2, zero_mul]
  have hgold (u v : List ℤ) : (VectorFst.compose comp (VectorFst.compose comp
      (sortedFinal comp arcSort fst x (goldFst y)) F) (goldFst y)).mass u v =
        if v = y then if u = y then (VectorFst.compose comp x fst).outputMass y * F.mass y y else 0
          else 0 := by
    rw [VectorFst.mass_compose hfinal, tsum_mass_goldFst hy]
    simp only [hedits]
  rw [← VectorFst.tsum_mass]
  simp only [hgold, tsum_ite_eq]

end Gold

include hsort in
/-- What the loop adds for a pair. -/
theorem TestPair.shortestDistance_eq (h : TestPair comp arcSort fst table p) :
    (VectorFst.compose comp (VectorFst.compose comp (sortedFinal comp arcSort fst p.1 (goldFst p.2))
      (editDistLog table table)) (goldFst p.2)).shortestDistance =
        (VectorFst.compose comp p.1 fst).outputMass p.2 * (editDistLog table table).mass p.2 p.2 :=
  shortestDistance_edits hsort h.letters h.final h.preFinalEdit h.finalEdit

theorem TestPair.outputMass_le_one (h : TestPair comp arcSort fst table p) (z : List ℤ) :
    (VectorFst.compose comp p.1 fst).outputMass z ≤ 1 := by
  rw [← h.total, ← VectorFst.tsum_outputMass]
  exact ENNReal.le_tsum z

theorem TestPair.expectedDistance_ne_top (h : TestPair comp arcSort fst table p) :
    expectedDistance (VectorFst.compose comp p.1 fst) p.2 ≠ ⊤ := by
  rw [expectedDistance, VectorFst.tsum_outputMass_mul, tsum_eq_sum (s := h.finite.toFinset)]
  · refine ENNReal.sum_ne_top.mpr fun q _ => ENNReal.mul_ne_top ?_ (ENNReal.natCast_ne_top _)
    have hle : (VectorFst.compose comp p.1 fst).value q ≤ 1 := by
      rw [← h.total]
      exact ENNReal.le_tsum q
    exact ne_top_of_le_ne_top ENNReal.one_ne_top hle
  · intro q hq
    rw [VectorFst.value_eq_zero fun hacc => hq (h.finite.mem_toFinset.mpr hacc), zero_mul]

end Pair

/-! ### Sums of logarithms -/

theorem value_mul {a b : LogWeight} (ha : a ≠ ⊤) (hb : b ≠ ⊤) :
    value (a * b) = value a + value b := by
  have ha' : ENNReal.log a ≠ ⊤ := fun h => ha (ENNReal.log_eq_top_iff.mp h)
  have hb' : ENNReal.log b ≠ ⊤ := fun h => hb (ENNReal.log_eq_top_iff.mp h)
  rw [value, value, value, ENNReal.log_mul_add, EReal.neg_add (.inr hb') (.inl ha'), sub_eq_add_neg]

theorem sum_value {ι : Type*} (w : ι → LogWeight) (l : List ι) (h : ∀ i ∈ l, w i ≠ ⊤) :
    (l.map fun i => value (w i)).sum = value (l.map w).prod ∧ (l.map w).prod ≠ ⊤ := by
  induction l with
  | nil => exact ⟨by simp [value], ENNReal.one_ne_top⟩
  | cons i l ih =>
    obtain ⟨hsum, hprod⟩ := ih fun j hj => h j (by simp [hj])
    have hi := h i (by simp)
    rw [List.map_cons, List.sum_cons, List.map_cons, List.prod_cons, hsum, value_mul hi hprod]
    exact ⟨rfl, ENNReal.mul_ne_top hi hprod⟩

theorem expectedLoop_eq (comp : Composer) (arcSort : VectorFst LogWeight → VectorFst LogWeight)
    (ev : LogEvaluator) (editDist : EReal)
    (data : List (VectorFst LogWeight × VectorFst LogWeight)) :
    ev.expectedLoop comp arcSort editDist data = editDist + (data.map fun d =>
      value
        (VectorFst.compose comp (VectorFst.compose comp (sortedFinal comp arcSort ev.fst d.1 d.2)
        ev.editDistLog) d.2).shortestDistance).sum := by
  induction data generalizing editDist with
  | nil => exact (add_zero editDist).symm
  | cons d data ih =>
    rw [LogEvaluator.expectedLoop, ih, List.map_cons, List.sum_cons, add_assoc]

theorem unitCost_ne_top : unitCost ≠ ⊤ := by
  rw [unitCost, ofValue, ← EReal.coe_one, ← EReal.coe_neg, EReal.exp_coe]
  exact ENNReal.ofReal_ne_top

theorem unitCost_ne_zero : unitCost ≠ 0 := by
  rw [unitCost, ofValue, ← EReal.coe_one, ← EReal.coe_neg, EReal.exp_coe]
  exact (ENNReal.ofReal_pos.mpr (Real.exp_pos _)).ne'

theorem scriptSum_ne_top (s t : List ℤ) : scriptSum unitCost s t ≠ ⊤ := by
  have hsub (x y : ℤ) : (if x = y then 1 else unitCost) ≠ ⊤ := by
    split_ifs
    · exact ENNReal.one_ne_top
    · exact unitCost_ne_top
  induction s generalizing t with
  | nil => exact ENNReal.pow_ne_top unitCost_ne_top
  | cons x xs ih =>
    induction t with
    | nil => exact ENNReal.mul_ne_top unitCost_ne_top (ih [])
    | cons y ys ih' =>
      rw [scriptSum_cons_cons]
      exact ENNReal.add_ne_top.mpr ⟨ENNReal.mul_ne_top unitCost_ne_top (ih _),
        ENNReal.add_ne_top.mpr ⟨ENNReal.mul_ne_top unitCost_ne_top ih',
          ENNReal.mul_ne_top (hsub x y) (ih _)⟩⟩

theorem scriptSum_ne_zero {c : LogWeight} (hc : c ≠ 0) (s t : List ℤ) : scriptSum c s t ≠ 0 := by
  induction s generalizing t with
  | nil => exact pow_ne_zero _ hc
  | cons x xs ih =>
    cases t with
    | nil => exact mul_ne_zero hc (ih [])
    | cons y ys =>
      rw [scriptSum_cons_cons]
      exact fun h => mul_ne_zero hc (ih (y :: ys)) (add_eq_zero.mp h).1

/-- The script that keeps every symbol costs nothing. -/
theorem one_le_scriptSum {c : LogWeight} (s : List ℤ) : 1 ≤ scriptSum c s s := by
  induction s with
  | nil => exact (pow_zero c).ge
  | cons x xs ih =>
    rw [scriptSum_cons_cons, if_pos rfl, one_mul, ← add_assoc]
    exact ih.trans le_add_self

/-- It is not the only script of a string with symbols. -/
theorem one_lt_scriptSum {c : LogWeight} (hc : c ≠ 0) (htop : ∀ s t : List ℤ, scriptSum c s t ≠ ⊤)
    {s : List ℤ} (hs : s ≠ []) : 1 < scriptSum c s s := by
  obtain ⟨x, xs, rfl⟩ := List.exists_cons_of_ne_nil hs
  rw [scriptSum_cons_cons, if_pos rfl, one_mul, ← add_assoc, add_comm]
  refine (one_le_scriptSum xs).trans_lt (ENNReal.lt_add_right (htop xs xs) fun h => ?_)
  exact mul_ne_zero hc (scriptSum_ne_zero hc _ _) (add_eq_zero.mp h).1

theorem one_lt_prod_scriptSum {ι : Type*} {pairs : List (ι × List ℤ)}
    (hne : ∃ p ∈ pairs, p.2 ≠ []) :
    1 < (pairs.map fun p => scriptSum unitCost p.2 p.2).prod := by
  obtain ⟨p, hp, hnil⟩ := hne
  calc 1 < scriptSum unitCost p.2 p.2 := one_lt_scriptSum unitCost_ne_zero scriptSum_ne_top hnil
    _ ≤ (pairs.map fun p => scriptSum unitCost p.2 p.2).prod := by
      refine List.single_le_prod ?_ _ (List.mem_map_of_mem hp)
      intro w hw
      obtain ⟨q, -, rfl⟩ := List.mem_map.mp hw
      exact one_le_scriptSum _

/-! ### What the evaluator returns -/

section Returns
variable {comp : Composer} {arcSort : VectorFst LogWeight → VectorFst LogWeight}
  {fst : VectorFst LogWeight} {table : List (Sym × ℤ)} {pairs : List (VectorFst LogWeight × List ℤ)}

/-- The evaluator on test pairs. -/
noncomputable def testEvaluator (fst : VectorFst LogWeight) (table : List (Sym × ℤ))
    (numFeatures : ℕ) (pairs : List (VectorFst LogWeight × List ℤ)) : LogEvaluator :=
  logEvaluator fst table table numFeatures (pairs.map fun p => (p.1, goldFst p.2))

/-- The sum of the expected distances. -/
noncomputable def expectedTotal (comp : Composer) (fst : VectorFst LogWeight)
    (pairs : List (VectorFst LogWeight × List ℤ)) : ℝ≥0∞ :=
  (pairs.map fun p => expectedDistance (VectorFst.compose comp p.1 fst) p.2).sum

variable (hsort : ∀ F, VectorFst.SameArcs F (arcSort F)) (hnodup : (idList table).Nodup)
  (h : ∀ p ∈ pairs, TestPair comp arcSort fst table p)

include hsort hnodup h

theorem expectedEditDistance_eq (numFeatures : ℕ) :
    (testEvaluator fst table numFeatures pairs).expectedEditDistance comp arcSort = value
      (pairs.map fun p => (VectorFst.compose comp p.1 fst).outputMass p.2 *
        (editDistLog table table).mass p.2 p.2).prod := by
  have hfinite : ∀ p ∈ pairs, (VectorFst.compose comp p.1 fst).outputMass p.2 *
      (editDistLog table table).mass p.2 p.2 ≠ ⊤ := by
    intro p hp
    refine ENNReal.mul_ne_top
      (ne_top_of_le_ne_top ENNReal.one_ne_top ((h p hp).outputMass_le_one p.2)) ?_
    by_cases hids : ∀ l ∈ p.2, l ∈ ids table
    · rw [mass_edit_eq hnodup hids hids]
      exact scriptSum_ne_top _ _
    · push Not at hids
      rw [mass_edit_eq_zero hnodup hids]
      exact ENNReal.zero_ne_top
  rw [LogEvaluator.expectedEditDistance, expectedLoop_eq, zero_add, ← (sum_value _ pairs hfinite).1]
  show ((pairs.map fun p => (p.1, goldFst p.2)).map _).sum = _
  rw [List.map_map]
  refine congrArg List.sum (List.map_congr_left fun p hp => congrArg value ?_)
  exact (h p hp).shortestDistance_eq hsort

omit hsort hnodup in
theorem expectedTotal_ne_top : expectedTotal comp fst pairs ≠ ⊤ := by
  rw [expectedTotal]
  induction pairs with
  | nil => exact ENNReal.zero_ne_top
  | cons p pairs ih =>
    rw [List.map_cons, List.sum_cons]
    exact ENNReal.add_ne_top.mpr ⟨(h p (by simp)).expectedDistance_ne_top,
      ih fun q hq => h q (by simp [hq])⟩

omit hsort hnodup in
theorem exp_neg_total_ne_zero : EReal.exp (-(expectedTotal comp fst pairs : EReal)) ≠ 0 := by
  intro hzero
  rw [EReal.exp_eq_zero_iff, EReal.neg_eq_bot_iff, EReal.coe_ennreal_eq_top_iff] at hzero
  exact expectedTotal_ne_top h hzero

/-- The returned sum is right exactly if it is finite and one equation holds. -/
theorem expectedEditDistance_eq_total_iff (numFeatures : ℕ) :
    (testEvaluator fst table numFeatures pairs).expectedEditDistance comp arcSort =
        (expectedTotal comp fst pairs : EReal) ↔
      (∀ p ∈ pairs, ∀ l ∈ p.2, l ∈ ids table) ∧
        (pairs.map fun p => (VectorFst.compose comp p.1 fst).outputMass p.2).prod *
          (pairs.map fun p => scriptSum unitCost p.2
            p.2).prod = EReal.exp (-(expectedTotal comp fst pairs : EReal)) := by
  have hvalue (W : LogWeight) (v : EReal) : value W = v ↔ W = EReal.exp (-v) := by
    constructor
    · rintro rfl
      exact (exp_neg_value W).symm
    · rintro rfl
      exact value_ofValue v
  rw [expectedEditDistance_eq hsort hnodup h, hvalue]
  by_cases hids : ∀ p ∈ pairs, ∀ l ∈ p.2, l ∈ ids table
  · have hmap : (pairs.map fun p => (VectorFst.compose comp p.1 fst).outputMass p.2 *
        (editDistLog table table).mass p.2 p.2) = pairs.map fun p =>
          (VectorFst.compose comp p.1 fst).outputMass p.2 * scriptSum unitCost p.2 p.2 :=
      List.map_congr_left fun p hp => by rw [mass_edit_eq hnodup (hids p hp) (hids p hp)]
    rw [hmap, List.prod_map_mul]
    exact (and_iff_right hids).symm
  · refine iff_of_false (fun hprod => exp_neg_total_ne_zero h ?_) fun hboth => hids hboth.1
    push Not at hids
    obtain ⟨p, hp, l, hl, hno⟩ := hids
    rw [← hprod, List.prod_eq_zero_iff]
    exact List.mem_map.mpr ⟨p, hp, by rw [mass_edit_eq_zero hnodup ⟨l, hl, hno⟩, mul_zero]⟩

/-- On a model that is certain of the gold outputs the result is negative. -/
theorem expectedEditDistance_neg (numFeatures : ℕ)
    (hcertain : ∀ p ∈ pairs, (VectorFst.compose comp p.1 fst).outputMass p.2 = 1)
    (hids : ∀ p ∈ pairs, ∀ l ∈ p.2, l ∈ ids table) (hne : ∃ p ∈ pairs, p.2 ≠ []) :
    (testEvaluator fst table numFeatures pairs).expectedEditDistance comp arcSort < 0 := by
  have hmap : (pairs.map fun p => (VectorFst.compose comp p.1 fst).outputMass p.2 *
      (editDistLog table table).mass p.2 p.2) = pairs.map fun p => scriptSum unitCost p.2 p.2 :=
    List.map_congr_left fun p hp => by
      rw [hcertain p hp, one_mul, mass_edit_eq hnodup (hids p hp) (hids p hp)]
  rw [expectedEditDistance_eq hsort hnodup h, hmap, value, EReal.neg_lt_zero, ← ENNReal.log_one]
  exact ENNReal.log_lt_log (one_lt_prod_scriptSum hne)

end Returns

/-! ### Where it is the expectation -/

/-- Every gold output is empty and certain. -/
def EmptyCertain (comp : Composer) (fst : VectorFst LogWeight)
    (pairs : List (VectorFst LogWeight × List ℤ)) : Prop :=
  ∀ p ∈ pairs, p.2 = [] ∧ (VectorFst.compose comp p.1 fst).outputMass p.2 = 1

/-- The numbers that are rational. -/
noncomputable def ratHom : ℚ≥0 →+* ℝ≥0∞ := ENNReal.ofNNRealHom.comp (NNRat.castHom ℝ≥0)

/-- The probabilities of all outputs are rational. -/
def RationalModel (comp : Composer) (fst : VectorFst LogWeight)
    (pairs : List (VectorFst LogWeight × List ℤ)) : Prop :=
  ∀ p ∈ pairs, ∀ z, (VectorFst.compose comp p.1 fst).outputMass z ∈ ratHom.rangeS

/-- The gold outputs are likely enough for the scripts to make up for them. -/
def GoldLikely (comp : Composer) (fst : VectorFst LogWeight)
    (pairs : List (VectorFst LogWeight × List ℤ)) : Prop :=
  ∀ p ∈ pairs, 1 ≤ (VectorFst.compose comp p.1 fst).outputMass p.2 * scriptSum unitCost p.2 p.2

section Rational

theorem toReal_ratHom (r : ℚ≥0) : (ratHom r).toReal = r := map_nnratCast NNReal.toRealHom r

/-- The sums over scripts are the values of integer polynomials at 1/e. -/
theorem toReal_scriptSum (s t : List ℤ) : (scriptSum unitCost s t).toReal = scriptSum
    (Real.exp (-1)) s t := by
  have hunit : unitCost = ENNReal.ofNNRealHom (Real.exp (-1)).toNNReal := by
    rw [unitCost, ofValue, ← EReal.coe_one, ← EReal.coe_neg, EReal.exp_coe]
    rfl
  have hreal : Real.exp (-1) = NNReal.toRealHom (Real.exp (-1)).toNNReal :=
    (Real.coe_toNNReal _ (Real.exp_nonneg _)).symm
  rw [hunit, ← map_scriptSum]
  conv_rhs => rw [hreal, ← map_scriptSum]
  rfl

variable {comp : Composer} {arcSort : VectorFst LogWeight → VectorFst LogWeight}
  {fst : VectorFst LogWeight} {table : List (Sym × ℤ)} {pairs : List (VectorFst LogWeight × List ℤ)}

/-- A model with rational probabilities has rational expected distances. -/
theorem expectedTotal_mem_rational (h : ∀ p ∈ pairs, TestPair comp arcSort fst table p)
    (hrat : RationalModel comp fst pairs) : expectedTotal comp fst pairs ∈ ratHom.rangeS := by
  refine list_sum_mem fun x hx => ?_
  obtain ⟨p, hp, rfl⟩ := List.mem_map.mp hx
  have hfinite := ((h p hp).finite.image (VectorFst.compose comp p.1 fst).ostring)
  rw [expectedDistance, tsum_eq_sum (s := hfinite.toFinset)]
  · exact sum_mem fun z _ => mul_mem (hrat p hp z) (natCast_mem _ _)
  · intro z hz
    rw [VectorFst.outputMass_eq, ENNReal.tsum_eq_zero.mpr, zero_mul]
    intro q
    split_ifs with hq
    · exact VectorFst.value_eq_zero fun hacc => hz (hfinite.mem_toFinset.mpr ⟨q, hacc, hq⟩)
    · rfl

/-- The equation of the returned sum has no rational solution but zero. -/
theorem eq_zero_of_rational {golds : List (List ℤ)} {r x : ℚ≥0}
    (heq : ratHom r * (golds.map fun y => scriptSum unitCost y y).prod =
      EReal.exp (-(ratHom x : EReal))) : x = 0 := by
  have hexp : EReal.exp (-(ratHom x : EReal)) = ENNReal.ofReal (Real.exp (-(x : ℝ))) := by
    have hcoe : (ratHom x : EReal) = ((x : ℝ) : EReal) := by
      rw [← toReal_ratHom]
      exact EReal.coe_nnreal_eq_coe_real _
    rw [hcoe, ← EReal.coe_neg, EReal.exp_coe]
  have hreal : (r : ℝ) * (golds.map fun y => scriptSum (Real.exp (-1)) y y).prod =
      Real.exp (-(x : ℝ)) := by
    have hlist : (golds.map fun y => scriptSum unitCost y y).prod.toReal =
        (golds.map fun y => scriptSum (Real.exp (-1)) y y).prod := by
      show ENNReal.toRealHom _ = _
      rw [map_list_prod, List.map_map]
      exact congrArg List.prod (List.map_congr_left fun y _ => toReal_scriptSum y y)
    rw [← hlist, ← toReal_ratHom, ← ENNReal.toReal_mul, heq, hexp,
      ENNReal.toReal_ofReal (Real.exp_nonneg _)]
  set Q : Polynomial ℚ := .C (r : ℚ) * (golds.map fun y => scriptSum (.X : Polynomial ℚ) y y).prod
  have hQ {S F : Type} [CommSemiring S] [FunLike F (Polynomial ℚ) S]
    [RingHomClass F (Polynomial ℚ) S] (f : F) :
      f Q = f (.C (r : ℚ)) * (golds.map fun y => scriptSum (f .X) y y).prod := by
    rw [map_mul, map_list_prod, List.map_map]
    refine congrArg _ (congrArg List.prod (List.map_congr_left fun y _ => map_scriptSum _ f y y))
  refine (eq_one_of_aeval_exp (Q := Q) ?_ ?_).1
  · have hr : (r : ℝ) ≠ 0 := by
      intro hr
      rw [hr, zero_mul] at hreal
      exact (Real.exp_ne_zero _) hreal.symm
    have hQ0 := hQ (Polynomial.evalRingHom (0 : ℚ))
    rw [Polynomial.coe_evalRingHom, Polynomial.eval_C, Polynomial.eval_X] at hQ0
    rw [hQ0]
    simp only [scriptSum_zero_self, List.map_const', List.prod_replicate, one_pow, mul_one]
    exact_mod_cast hr
  · rw [hQ (Polynomial.aeval (Real.exp (-1))), Polynomial.aeval_C, Polynomial.aeval_X]
    exact hreal

end Rational

section Exact
variable {comp : Composer} {arcSort : VectorFst LogWeight → VectorFst LogWeight}
  {fst : VectorFst LogWeight} {table : List (Sym × ℤ)} {pairs : List (VectorFst LogWeight × List ℤ)}

/-- A model that never errs is certain. -/
theorem TestPair.outputMass_eq_one {p : VectorFst LogWeight × List ℤ}
    (h : TestPair comp arcSort fst table p)
    (hzero : expectedDistance (VectorFst.compose comp p.1 fst) p.2 = 0) :
    (VectorFst.compose comp p.1 fst).outputMass p.2 = 1 := by
  have hother (z : List ℤ) (hz : z ≠ p.2) : (VectorFst.compose comp p.1 fst).outputMass z = 0 := by
    have hterm := ENNReal.tsum_eq_zero.mp hzero z
    rcases mul_eq_zero.mp hterm with hmass | hdist
    · exact hmass
    · exact absurd (levenshtein_eq_zero_iff.mp (Nat.cast_eq_zero.mp hdist)).symm hz
  rw [← h.total, ← VectorFst.tsum_outputMass, tsum_eq_single p.2 hother]

variable (h : ∀ p ∈ pairs, TestPair comp arcSort fst table p)

include h

theorem EmptyCertain.total_eq_zero (hempty : EmptyCertain comp fst pairs) :
    expectedTotal comp fst pairs = 0 := by
  refine List.sum_eq_zero fun x hx => ?_
  obtain ⟨p, hp, rfl⟩ := List.mem_map.mp hx
  obtain ⟨hnil, hone⟩ := hempty p hp
  have htotal : tsum (VectorFst.compose comp p.1 fst).outputMass = 1 := by
    rw [VectorFst.tsum_outputMass, (h p hp).total]
  rw [ENNReal.tsum_eq_add_tsum_ite p.2, hone] at htotal
  have hrest := (ENNReal.add_right_inj ENNReal.one_ne_top).mp (htotal.trans (add_zero 1).symm)
  refine ENNReal.tsum_eq_zero.mpr fun z => ?_
  have hz := ENNReal.tsum_eq_zero.mp hrest z
  split_ifs at hz with heq
  · rw [heq, levenshtein_eq_zero_iff.mpr rfl, Nat.cast_zero, mul_zero]
  · rw [hz, zero_mul]

theorem emptyCertain_of_total_eq_zero (hzero : expectedTotal comp fst pairs = 0)
    (hprod : (pairs.map fun p => (VectorFst.compose comp p.1 fst).outputMass p.2).prod *
      (pairs.map fun p => scriptSum unitCost p.2 p.2).prod = 1) : EmptyCertain comp fst pairs := by
  have hone : ∀ p ∈ pairs, (VectorFst.compose comp p.1 fst).outputMass p.2 = 1 := fun p hp =>
    (h p hp).outputMass_eq_one (List.sum_eq_zero_iff.mp hzero _ (List.mem_map_of_mem hp))
  have hmass : (pairs.map fun p => (VectorFst.compose comp p.1 fst).outputMass p.2).prod = 1 := by
    refine List.prod_eq_one fun x hx => ?_
    obtain ⟨p, hp, rfl⟩ := List.mem_map.mp hx
    exact hone p hp
  rw [hmass, one_mul] at hprod
  refine fun p hp => ⟨?_, hone p hp⟩
  by_contra hne
  exact (one_lt_prod_scriptSum ⟨p, hp, hne⟩).ne' hprod

variable (hsort : ∀ F, VectorFst.SameArcs F (arcSort F)) (hnodup : (idList table).Nodup)

include hsort hnodup

/-- Where the expectation is zero the returned sum is right for empty and certain outputs
only, -/
theorem emptyCertain_iff (numFeatures : ℕ) : EmptyCertain comp fst pairs ↔
    (testEvaluator fst table numFeatures pairs).expectedEditDistance comp arcSort =
      (expectedTotal comp fst pairs : EReal) ∧ expectedTotal comp fst pairs = 0 := by
  have hone : EReal.exp (-((0 : ℝ≥0∞) : EReal)) = 1 := by
    rw [EReal.coe_ennreal_zero, neg_zero, EReal.exp_zero]
  rw [expectedEditDistance_eq_total_iff hsort hnodup h]
  constructor
  · intro hempty
    have hzero := hempty.total_eq_zero h
    refine ⟨⟨fun p hp l hl => ?_, ?_⟩, hzero⟩
    · rw [(hempty p hp).1] at hl
      exact absurd hl List.not_mem_nil
    · rw [hzero, hone, List.prod_eq_one, List.prod_eq_one, one_mul]
      · intro x hx
        obtain ⟨p, hp, rfl⟩ := List.mem_map.mp hx
        rw [(hempty p hp).1]
        exact pow_zero unitCost
      · intro x hx
        obtain ⟨p, hp, rfl⟩ := List.mem_map.mp hx
        exact (hempty p hp).2
  · rintro ⟨⟨-, hprod⟩, hzero⟩
    rw [hzero, hone] at hprod
    exact emptyCertain_of_total_eq_zero h hzero hprod

/-- and neither rational probabilities nor likely outputs allow another expectation. -/
theorem total_eq_zero_of_eq (numFeatures : ℕ)
    (heq : (testEvaluator fst table numFeatures pairs).expectedEditDistance comp arcSort =
      (expectedTotal comp fst pairs : EReal))
    (hcase : RationalModel comp fst pairs ∨ GoldLikely comp fst pairs) :
    expectedTotal comp fst pairs = 0 := by
  obtain ⟨-, hprod⟩ := (expectedEditDistance_eq_total_iff hsort hnodup h numFeatures).mp heq
  rcases hcase with hrat | hlikely
  · obtain ⟨x, hx⟩ := expectedTotal_mem_rational h hrat
    have hmem : (pairs.map fun p => (VectorFst.compose comp p.1 fst).outputMass p.2).prod ∈
        ratHom.rangeS := by
      refine list_prod_mem fun w hw => ?_
      obtain ⟨p, hp, rfl⟩ := List.mem_map.mp hw
      exact hrat p hp p.2
    obtain ⟨r, hr⟩ := hmem
    rw [← hr, ← hx] at hprod
    have hgolds : (pairs.map fun p => scriptSum unitCost p.2 p.2) =
        (pairs.map Prod.snd).map fun y => scriptSum unitCost y y := by
      rw [List.map_map]
      rfl
    rw [hgolds] at hprod
    rw [← hx, eq_zero_of_rational hprod, map_zero]
  · have hone : 1 ≤ EReal.exp (-(expectedTotal comp fst pairs : EReal)) := by
      rw [← hprod, ← List.prod_map_mul]
      refine List.one_le_prod_of_one_le fun w hw => ?_
      obtain ⟨p, hp, rfl⟩ := List.mem_map.mp hw
      exact hlikely p hp
    rw [← EReal.exp_zero, EReal.exp_le_exp_iff, EReal.le_neg, neg_zero] at hone
    exact le_antisymm (by exact_mod_cast hone) zero_le

/-- The returned sum is the expectation where every gold output is empty and certain. With
rational probabilities, or gold outputs likely enough, it is the expectation nowhere else,
and never with a gold output that is impossible or has a symbol out of the table. -/
theorem expectedEditDistance_iff (numFeatures : ℕ) :
    (EmptyCertain comp fst pairs →
      (testEvaluator fst table numFeatures pairs).expectedEditDistance comp arcSort =
      (expectedTotal comp fst pairs : EReal)) ∧
    (RationalModel comp fst pairs ∨ GoldLikely comp fst pairs →
      ((testEvaluator fst table numFeatures pairs).expectedEditDistance comp arcSort =
        (expectedTotal comp fst pairs : EReal) ↔ EmptyCertain comp fst pairs)) ∧
    ((∃ p ∈ pairs, (∃ l ∈ p.2, l ∉ ids table) ∨
      (VectorFst.compose comp p.1 fst).outputMass p.2 = 0) →
      (testEvaluator fst table numFeatures pairs).expectedEditDistance comp arcSort ≠
        (expectedTotal comp fst pairs : EReal)) := by
  have hiff := emptyCertain_iff h hsort hnodup numFeatures
  refine ⟨fun hempty => (hiff.mp hempty).1,
    fun hcase => ⟨fun heq => ?_, fun hempty => (hiff.mp hempty).1⟩, ?_⟩
  · exact hiff.mpr ⟨heq, total_eq_zero_of_eq h hsort hnodup numFeatures heq hcase⟩
  · rintro ⟨p, hp, hbad⟩ heq
    obtain ⟨hids, hprod⟩ := (expectedEditDistance_eq_total_iff hsort hnodup h numFeatures).mp heq
    rcases hbad with ⟨l, hl, hno⟩ | hzero
    · exact hno (hids p hp l hl)
    · have hnone : (pairs.map fun p => (VectorFst.compose comp p.1 fst).outputMass p.2).prod = 0 :=
        List.prod_eq_zero_iff.mpr (List.mem_map.mpr ⟨p, hp, hzero⟩)
      rw [hnone, zero_mul] at hprod
      exact exp_neg_total_ne_zero h hprod.symm

end Exact

/-! ### A certain model -/

section Certain
variable {y : List ℤ} (hy : ∀ l ∈ y, l ≠ 0)

include hy

theorem noEmpty_goldFst : NoEmpty (goldFst y) := by
  refine noEmpty_linear fun x hx => ?_
  obtain ⟨l, hl, rfl⟩ := List.mem_map.mp hx
  exact ⟨hy l hl, hy l hl⟩

theorem exact_goldFst (F : VectorFst LogWeight) : VectorFst.Exact product F (goldFst y) :=
  isExact_product ((noEmpty_goldFst hy).noConflict_right F)

theorem mass_certain (s t : List ℤ) :
    (VectorFst.compose product (goldFst y) (goldFst y)).mass s t = if s = y ∧
      t = y then 1 else 0 := by
  rw [VectorFst.mass_compose (exact_goldFst hy _), tsum_mass_goldFst hy, mass_goldFst hy]
  by_cases ht : t = y <;> simp [ht]

theorem outputMass_certain (t : List ℤ) :
    (VectorFst.compose product (goldFst y) (goldFst y)).outputMass t = if t = y then 1 else 0 := by
  rw [VectorFst.outputMass]
  simp only [mass_certain hy]
  by_cases ht : t = y <;> simp [ht]

/-- The acceptor of `y` as input and as model. -/
theorem testPair_goldFst {arcSort : VectorFst LogWeight → VectorFst LogWeight}
    (hsort : ∀ F, VectorFst.SameArcs F (arcSort F)) (table : List (Sym × ℤ)) :
    TestPair product arcSort (goldFst y) table (goldFst y, y) := by
  have hexact := exact_goldFst hy (goldFst y)
  have hno := (noEmpty_goldFst hy).compose (noEmpty_goldFst hy) hexact.matched
  have hfinal := hno.compose (noEmpty_goldFst hy) (exact_goldFst hy _).matched
  refine ⟨hy, ?_, ?_, exact_goldFst hy _, ?_, exact_goldFst hy _⟩
  · -- the paths of the lattice are pairs of paths of linear machines
    refine Set.Subsingleton.finite ?_
    intro p hp p' hp'
    have hside {p : List ℕ} (hp : (VectorFst.compose product (goldFst y) (goldFst y)).Accepts p) :
        (product (goldFst y).shape (goldFst y).shape).Accepts p ∧
          (goldFst y).Accepts ((product (goldFst y).shape (goldFst y).shape).leftPath p) ∧
          (goldFst y).Accepts ((product (goldFst y).shape (goldFst y).shape).rightPath p) := by
      obtain ⟨q, hq⟩ := (VectorFst.accepts_map _ _ _).mp hp
      obtain ⟨o, ho⟩ := Option.isSome_iff_exists.mp hq.choose_spec.2.2
      obtain ⟨q₁, q₂, rfl⟩ := hexact.final q o ho
      obtain ⟨h₁, h₂⟩ := hexact.sound p q q₁ q₂ hq ho
      exact ⟨⟨q, hq⟩, ⟨q₁, (VectorFst.acceptsAt_map _ _ _).mp h₁⟩, q₂,
        (VectorFst.acceptsAt_map _ _ _).mp h₂⟩
    obtain ⟨hacc, hleft, hright⟩ := hside hp
    obtain ⟨hacc', hleft', hright'⟩ := hside hp'
    exact hexact.unique p p' hacc hacc' (accepts_linear_eq hleft hleft')
      (accepts_linear_eq hright hright')
  · rw [← VectorFst.tsum_outputMass]
    show (tsum fun t => (VectorFst.compose product (goldFst y) (goldFst y)).outputMass t) = 1
    simp only [outputMass_certain hy, tsum_ite_eq]
  · exact isExact_product (((hsort _).noEmpty (noEmpty_projectOutput hfinal)).noConflict_left _)

end Certain

/-- A sort of the arcs by what they read. -/
def arcSort (F : VectorFst LogWeight) : VectorFst LogWeight :=
  ⟨F.start, F.states.map fun s => ⟨s.final, s.arcs.mergeSort fun a b => a.ilabel ≤ b.ilabel⟩⟩

theorem sameArcs_arcSort (F : VectorFst LogWeight) : VectorFst.SameArcs F (arcSort F) := by
  refine ⟨rfl, List.forall₂_map_right_iff.mpr (List.forall₂_same.mpr fun s _ => ⟨rfl, ?_⟩)⟩
  exact List.mergeSort_perm s.arcs _

/-- The table of one letter. -/
def letterTable : List (Sym × ℤ) := [("<eps>", 0), ("a", 1)]

/-- A test set with one pair, and the model that copies the letter. -/
noncomputable def letterPairs : List (VectorFst LogWeight × List ℤ) := [(goldFst [1], [1])]

theorem testPair_letter : ∀ p ∈ letterPairs, TestPair product arcSort
    (goldFst [1]) letterTable p := by
  intro p hp
  obtain rfl := List.mem_singleton.mp hp
  exact testPair_goldFst (by decide) sameArcs_arcSort letterTable

/-- A test set with an empty gold output, which is certain. -/
noncomputable def emptyPairs : List (VectorFst LogWeight × List ℤ) := [(goldFst [], [])]

theorem testPair_empty : ∀ p ∈ emptyPairs, TestPair product arcSort (goldFst []) letterTable p := by
  intro p hp
  obtain rfl := List.mem_singleton.mp hp
  exact testPair_goldFst (by decide) sameArcs_arcSort letterTable

theorem expectedEditDistance_empty :
    (testEvaluator (goldFst []) letterTable 0 emptyPairs).expectedEditDistance product arcSort =
      (expectedTotal product (goldFst []) emptyPairs : EReal) := by
  refine (expectedEditDistance_iff testPair_empty sameArcs_arcSort (by decide) 0).1 fun p hp => ?_
  obtain rfl := List.mem_singleton.mp hp
  exact ⟨rfl, (outputMass_certain (by decide) []).trans (if_pos rfl)⟩

/-- The copying model never errs, and what is returned for it is less than zero. -/
theorem not_expectedEditDistance :
    (∀ p ∈ letterPairs, TestPair product arcSort (goldFst [1]) letterTable p) ∧
      (testEvaluator (goldFst [1]) letterTable 0 letterPairs).expectedEditDistance product arcSort ≠
        (expectedTotal product (goldFst [1]) letterPairs : EReal) := by
  refine ⟨testPair_letter, fun h => ?_⟩
  have hneg : (testEvaluator (goldFst [1]) letterTable 0 letterPairs).expectedEditDistance product
      arcSort < 0 := by
    refine expectedEditDistance_neg sameArcs_arcSort (by decide) testPair_letter 0 ?_ ?_ ?_
    · intro p hp
      obtain rfl := List.mem_singleton.mp hp
      exact (outputMass_certain (by decide) [1]).trans (if_pos rfl)
    · intro p hp l hl
      obtain rfl := List.mem_singleton.mp hp
      obtain rfl := List.mem_singleton.mp hl
      exact ⟨one_ne_zero, by decide⟩
    · exact ⟨_, List.mem_singleton_self _, List.cons_ne_nil _ _⟩
  rw [h] at hneg
  exact hneg.not_ge (EReal.coe_ennreal_nonneg _)

end StochasticEdit.Evaluation
