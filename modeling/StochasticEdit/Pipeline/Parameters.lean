import StochasticEdit.Pipeline.LogLinear

/-! The parameters by number and by name. `featurize.py` numbers the features in the order in
which it meets them, so the numbers depend on the order of the arcs; the names do not. -/

namespace StochasticEdit.Pipeline

open Wfst Generator Features Trainer Text
open scoped ENNReal

/-! ### Scores of rows -/

section Scores
variable {n : ℕ} {θ : ColumnVector n}

theorem dotRow_eq_sum {read : ℤ → Option ℝ} {f : ℤ → ℝ} {row : List ℤ}
    (h : ∀ i ∈ row, read i = some (f i)) (total : ℝ) :
    dotRow read total row = some (total + (row.map f).sum) := by
  induction row generalizing total with
  | nil => simp [dotRow]
  | cons i row ih =>
    simp only [dotRow, h i List.mem_cons_self, Option.bind_eq_bind, Option.bind_some, List.map_cons,
      List.sum_cons]
    rw [ih fun j hj => h j (List.mem_cons_of_mem i hj), add_assoc]

theorem score_eq_sum {features : FeatureMap} {k e : ℕ} (hrows : Rows features k n) (he : e < k)
    {row : List ℤ} (hrow : features[e]? = some row) {f : ℤ → ℝ}
    (h : ∀ i ∈ row, θ.at i = some (f i)) :
    score features θ e = (row.map f).sum := by
  have hscore := multFeaturesByWeights_eq hrows θ he
  rw [multFeaturesByWeights, hrow, Option.bind_eq_bind, Option.bind_some, dotRow_eq_sum h,
    zero_add] at hscore
  exact (Option.some.inj hscore).symm

theorem at_of_lt {i : ℕ} (hi : i < n) : θ.at i = some (θ ⟨i, hi⟩) := by
  have hat : 0 ≤ (i : ℤ) ∧ (i : ℤ).toNat < n := ⟨Int.natCast_nonneg i, hi⟩
  rw [ColumnVector.at, dif_pos hat]
  rfl

/-! ### Numbers and names -/

/-- `θ` gives the features in `order` the weights `w`, and feature 0 the weight `a`. -/
structure Names (order : List Str) (θ : ColumnVector n) (w : Str → ℝ) (a : ℝ) : Prop where
  named : ∀ f ∈ order, θ.at (number order f) = some (w f)
  zero : θ.at 0 = some a

variable {order : List Str} {w : Str → ℝ} {a : ℝ}

theorem exists_names (hn : n = order.length + 1) (θ : ColumnVector n) :
    ∃ w a, Names order θ w a := by
  subst hn
  refine ⟨fun f => (θ.at (number order f)).getD 0, θ 0, fun f hf => ?_, at_of_lt (Nat.succ_pos _)⟩
  obtain ⟨i, hi, -, hnumber⟩ := exists_number hf
  rw [hnumber, at_of_lt (Nat.succ_lt_succ hi), Option.getD_some]

/-- The weights in the order of the numbers. -/
def numbered (order : List Str) (w : Str → ℝ) (a : ℝ) : ColumnVector (order.length + 1) :=
  Fin.cons a fun i => w order[i]

theorem names_numbered (order : List Str) (w : Str → ℝ) (a : ℝ) :
    Names order (numbered order w a) w a := by
  constructor
  · intro f hf
    obtain ⟨i, hi, hget, hnumber⟩ := exists_number hf
    rw [hnumber, at_of_lt (Nat.succ_lt_succ hi), ← hget]
    rfl
  · exact at_of_lt (Nat.succ_pos _)

theorem Names.eq_numbered {θ : ColumnVector (order.length + 1)} (hnodup : order.Nodup)
    (h : Names order θ w a) : θ = numbered order w a := by
  funext i
  refine Fin.cases ?_ (fun i => ?_) i
  · exact Option.some.inj ((at_of_lt (Nat.succ_pos _)).symm.trans h.zero)
  · have hat := h.named order[i.val] (List.getElem_mem i.isLt)
    rw [number_getElem hnodup i.isLt, at_of_lt (Nat.succ_lt_succ i.isLt)] at hat
    exact Option.some.inj hat

/-- The square of the vector is that of the named weights. -/
theorem Names.dotProduct (hn : n = order.length + 1) (hnodup : order.Nodup)
    (h : Names order θ w a) :
    θ ⬝ᵥ θ = a ^ 2 + (order.map fun f => w f ^ 2).sum := by
  subst hn
  rw [h.eq_numbered hnodup, dotProduct, Fin.sum_univ_succ, numbered, Fin.cons_zero, ← pow_two,
    ← Fin.sum_univ_fun_getElem]
  refine congrArg (a ^ 2 + ·) (Finset.sum_congr rfl fun i _ => ?_)
  rw [Fin.cons_succ, pow_two]
  rfl

end Scores

/-! ### The table of the pipeline -/

/-- The table that is made of a transducer and read, with the features numbered in `order`. -/
structure Table {W : Type*} (args : Args) (M : Machine W) (reader : FeatureReader)
    (order : List Str) :
    Prop where
  read : tableReader args M = some reader
  rows : Rows reader.features M.fst.numArcs reader.numberFeatures.toNat
  row : ∀ e r, M.record? args e = some r →
    reader.features[e]? = some ((rowIds order r).map fun i : ℕ => (i : ℤ))
  mem : ∀ f, f ∈ order ↔ f ∈ featureNames args
  nodup : order.Nodup
  size : reader.numberFeatures.toNat = order.length + 1

section Table
variable {W : Type*} [One W] {ord : HashOrder} {args : Args} {M : Machine W}

theorem featureNames_nonempty (args : Args) : (featureNames args).Nonempty := by
  obtain ⟨o, ho⟩ := List.exists_mem_of_ne_nil _ (options_ne_nil args [])
  have hne : editFeatures (window args [] [] []) o ≠ [] := by
    rcases o with _ | _ | _ | _ <;> exact List.cons_ne_nil _ _
  obtain ⟨f, hf⟩ := List.exists_mem_of_ne_nil _ hne
  exact ⟨f, [], [], [], by simp, by simp, o, ho, hf⟩

/-- The features that fire on the arcs are those of the edits. -/
theorem mem_featureOrder_iff (h : contextualEdit W ord args = some M) (hV : args.Valid)
    (hu : args.sizes.ulcMax ≤ 1) (hl : args.sizes.llcMax ≤ 1) (hr : 1 ≤ args.sizes.urcMax)
    {r : ℕ → Record} (hrecord : ∀ e < M.fst.numArcs, M.record? args e = some (r e)) (f : Str) :
    f ∈ featureOrder r M.fst.numArcs ↔ f ∈ featureNames args := by
  rw [featureOrder, mem_firstSeen, List.mem_flatMap]
  constructor
  · rintro (hf | ⟨e, he, hf⟩)
    · exact absurd hf List.not_mem_nil
    · obtain ⟨c, m, t, hc, hm, ha, hrec⟩ :=
        exists_move_of_record? h hV.unreserved (hrecord e (List.mem_range.mp he))
      have hact : m.action ≠ .ABS := by
        intro hact
        rw [hrec, fired, if_pos hact] at hf
        exact List.not_mem_nil hf
      have hlabel : m.ilabel args = 0 := by
        by_contra hne
        obtain ⟨v, rfl⟩ := (ilabel_ne_zero_iff hV.unreserved hm).mp hne
        exact hact rfl
      obtain ⟨left, right, low, hleft, hlow, rfl⟩ :=
        exists_window hu hl hc (isBold_of_ilabel hV.unreserved hu hl hc hm hlabel)
      rw [hrec, fired_move hact] at hf
      refine ⟨left, right, low, hleft, hlow, m.edit?, ?_, hf⟩
      rw [← map_moves_window hV hu hl hr fun s hs => hleft s (List.mem_append_right _ hs)]
      exact List.mem_map_of_mem (f := fun m : Move × Option Context => m.1.edit?) hm
  · rintro ⟨left, right, low, hleft, hlow, o, ho, hf⟩
    have hc := window_isKey hV hu hl hleft hlow
    rw [← map_moves_window hV hu hl hr fun s hs => hleft s (List.mem_append_right _ hs)] at ho
    obtain ⟨⟨m, t⟩, hm, rfl⟩ := List.mem_map.mp ho
    obtain ⟨e, he, hrec⟩ := exists_record?_of_move h hV.unreserved hc hm
    have hact : m.action ≠ .ABS := by
      intro hact
      obtain ⟨v, rfl⟩ := action_abs_iff.mp hact
      exact (mem_moves_abs.mp hm).1 (isBold_window hu hl left right low)
    refine .inr ⟨e, List.mem_range.mpr he, ?_⟩
    rw [Option.some.inj ((hrecord e he).symm.trans hrec), fired_move hact]
    exact hf

theorem exists_table (h : contextualEdit W ord args = some M) (hu : args.sizes.ulcMax ≤ 1)
    (hl : args.sizes.llcMax ≤ 1) (hr : 1 ≤ args.sizes.urcMax)
    (hV1 : CharAlphabet (· ∉ separators) args.V1) (hV2 : CharAlphabet (· ∉ separators) args.V2) :
    ∃ reader order, Table args M reader order := by
  have hV : args.Valid := valid_of_charAlphabet hV1 hV2
  obtain ⟨r, text, reader, hrecord, hwritten, hprinted, hread, hholds⟩ :=
    exists_pipeline h hr hV1.toCharSymbols hV2.toCharSymbols
  let order := featureOrder r M.fst.numArcs
  have hmem : ∀ f, f ∈ order ↔ f ∈ featureNames args := mem_featureOrder_iff h hV hu hl hr hrecord
  have hnodup : order.Nodup := nodup_firstSeen List.nodup_nil _
  refine ⟨reader, order, ?_, hholds.rows, fun e r' hr' => ?_, hmem, hnodup, ?_⟩
  · rw [tableReader, hwritten, Option.bind_eq_bind, Option.bind_some, hprinted]
    exact hread
  · obtain ⟨⟨q, a⟩, ha, -⟩ := Option.bind_eq_some_iff.mp hr'
    have he : e < M.fst.numArcs := VectorFst.lt_numArcs_of_arc? ha
    rw [hholds.getElem? he, Option.some.inj ((hrecord e he).symm.trans hr')]
  · have hfired {e : ℕ} (he : e < M.fst.numArcs) : fired (r e) ⊆ order := fun f hf =>
      mem_firstSeen.mpr (.inr (List.mem_flatMap.mpr ⟨e, List.mem_range.mpr he, hf⟩))
    -- no id is above the number of features
    have hle : reader.featureMax ≤ order.length := by
      refine @featureMax_le order.length
        ((List.range M.fst.numArcs).map fun e => (e, rowIds order (r e))) ?_ reader ?_
      · intro l hl
        obtain ⟨e, he, rfl⟩ := List.mem_map.mp hl
        have he := List.mem_range.mp he
        obtain ⟨c, m, t, -, -, -, hrec⟩ := exists_move_of_record? h hV.unreserved (hrecord e he)
        refine ⟨rowIds_ne_nil _ _ ⟨c, hrec ▸ rfl⟩, fun i hi => ?_⟩
        by_cases hact : (r e).action = .ABS
        · rw [rowIds, if_pos hact] at hi
          rw [List.mem_singleton.mp hi]
          exact Nat.zero_le _
        · rw [rowIds, if_neg hact] at hi
          obtain ⟨f, hf, rfl⟩ := List.mem_map.mp hi
          obtain ⟨i, hi, -, hnumber⟩ := exists_number (hfired he hf)
          rw [hnumber]
          exact hi
      · rw [List.map_map]
        exact hread
    -- and the last feature has that id
    have hge : (order.length : ℤ) ≤ reader.featureMax := by
      have hne : order ≠ [] := by
        obtain ⟨f, hf⟩ := featureNames_nonempty args
        exact List.ne_nil_of_mem ((hmem f).mpr hf)
      have hlast := List.getLast_mem hne
      have hid : number order (order.getLast hne) = order.length := by
        have hpos := List.length_pos_of_ne_nil hne
        rw [List.getLast_eq_getElem, number_getElem hnodup]
        omega
      rcases mem_firstSeen.mp hlast with hf | hf
      · exact absurd hf List.not_mem_nil
      · obtain ⟨e, he, hf⟩ := List.mem_flatMap.mp hf
        have hact : (r e).action ≠ .ABS := by
          intro hact
          rw [fired, if_pos hact] at hf
          exact List.not_mem_nil hf
        rw [← hid]
        apply hholds.le_max (rowIds order (r e)) (List.mem_map_of_mem he)
        rw [rowIds, if_neg hact]
        exact List.mem_map_of_mem hf
    rw [FeatureReader.numberFeatures]
    omega

/-- The score of an arc is the cost of its edit. -/
theorem Table.score_eq {reader : FeatureReader} {order : List Str}
    (htable : Table args M reader order) (h : contextualEdit W ord args = some M) (hV : args.Valid)
    (hu : args.sizes.ulcMax ≤ 1) (hl : args.sizes.llcMax ≤ 1) (hr : 1 ≤ args.sizes.urcMax)
    {θ : ColumnVector reader.numberFeatures.toNat} {w : Str → ℝ} {a : ℝ} (hw : Names order θ w a)
    {c : Context} (hc : IsKey args c) {m : Move} {t : Option Context} (hm : (m, t) ∈ moves args c)
    (hact : m.action ≠ .ABS) {e : ℕ}
    (he : M.fst.arc? e = some (stateNum ord args c, moveArc W ord args c (m, t))) :
    score reader.features θ e = editCost w c m.edit? := by
  have hrecord := record?_of_move h hV.unreserved hc hm he
  have hlabel : m.ilabel args = 0 := by
    by_contra hne
    obtain ⟨v, rfl⟩ := (ilabel_ne_zero_iff hV.unreserved hm).mp hne
    exact hact rfl
  have hmem : ∀ f ∈ editFeatures c m.edit?, f ∈ order := by
    obtain ⟨left, right, low, hleft, hlow, rfl⟩ :=
      exists_window hu hl hc (isBold_of_ilabel hV.unreserved hu hl hc hm hlabel)
    refine fun f hf => (htable.mem f).mpr ⟨left, right, low, hleft, hlow, m.edit?, ?_, hf⟩
    rw [← map_moves_window hV hu hl hr fun s hs => hleft s (List.mem_append_right _ hs)]
    exact List.mem_map_of_mem (f := fun m : Move × Option Context => m.1.edit?) hm
  have hrow := htable.row e _ hrecord
  rw [rowIds, if_neg hact, fired_move hact, List.map_map] at hrow
  have hread : ∀ i ∈ (editFeatures c m.edit?).map ((fun i : ℕ => (i : ℤ)) ∘ number order),
      θ.at i = some ((θ.at i).getD 0) := by
    intro i hi
    obtain ⟨f, hf, rfl⟩ := List.mem_map.mp hi
    show θ.at (number order f) = some ((θ.at (number order f)).getD 0)
    rw [hw.named f (hmem f hf), Option.getD_some]
  rw [score_eq_sum htable.rows (VectorFst.lt_numArcs_of_arc? he) hrow hread, List.map_map, editCost]
  refine congrArg List.sum (List.map_congr_left fun f hf => ?_)
  show (θ.at (number order f)).getD 0 = w f
  rw [hw.named f (hmem f hf), Option.getD_some]

end Table

/-- The weights that `update_arc_weights` writes are the probabilities of the log-linear
model. -/
theorem Table.newWeight_eq {ord : HashOrder} {args : Args} {M : Machine LogWeight}
    {reader : FeatureReader} {order : List Str} (htable : Table args M reader order)
    (h : contextualEdit LogWeight ord args = some M) (hV : args.Valid) (hu : args.sizes.ulcMax ≤ 1)
    (hl : args.sizes.llcMax ≤ 1) (hr : 1 ≤ args.sizes.urcMax)
    {θ : ColumnVector reader.numberFeatures.toNat} {w : Str → ℝ} {a : ℝ} (hw : Names order θ w a)
    {e : ℕ} (he : e < M.fst.numArcs) :
    newWeight logsum (score reader.features θ) M.fst e = M.probs args (logLinear args w) e :=
  newWeight_eq_probs h hV hu hl hr
    (fun _ _ _ _ hc hm hact ha => htable.score_eq h hV hu hl hr hw hc hm hact ha) he

end StochasticEdit.Pipeline
