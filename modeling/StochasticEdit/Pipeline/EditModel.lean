import StochasticEdit.Features.Conservation
import StochasticEdit.Generator.Scripts

/-! The transducer and the models of the next edit. Arc probabilities that sum to 1 over each
state and input label are nothing else than a distribution over the next edit in each
context, so the parameters of the transducer are those of the model and no others. -/

namespace StochasticEdit.Pipeline

open Wfst Generator Features
open scoped ENNReal

variable {W : Type*} [One W] {ord : HashOrder} {args : Args} {M : Machine W} {c : Context}
  {pr : ℕ → ℝ≥0∞} {p : EditModel}

/-! ### The groups of a full context -/

theorem ilabel_of_bold (hV : args.Unreserved) (hb : isBold args.sizes c) {m : Move}
    {t : Option Context} (hm : (m, t) ∈ moves args c) : m.ilabel args = 0 := by
  by_contra hne
  obtain ⟨v, rfl⟩ := (ilabel_ne_zero_iff hV hm).mp hne
  exact (mem_moves_abs.mp hm).1 hb

theorem isBold_of_ilabel (hV : args.Unreserved) (hu : args.sizes.ulcMax ≤ 1)
    (hl : args.sizes.llcMax ≤ 1) (hc : IsKey args c) {m : Move} {t : Option Context}
    (hm : (m, t) ∈ moves args c) (hlabel : m.ilabel args = 0) : isBold args.sizes c := by
  cases m with
  | final => exact (isBold_iff_length_urc hu hl hc).mpr (mem_moves_final.mp hm).2.1
  | ins v => exact (mem_moves_ins.mp hm).1
  | sub v => exact (mem_moves_sub.mp hm).1
  | del => exact (mem_moves_del.mp hm).1
  | abs v => exact absurd hlabel ((ilabel_ne_zero_iff hV hm).mpr ⟨v, rfl⟩)

/-- A sum over the arcs of a full context is a sum over its moves. -/
theorem tsum_group_bold (h : contextualEdit W ord args = some M) (hV : args.Unreserved)
    (hc : IsKey args c) (hb : isBold args.sizes c) {f : ℕ → ℝ≥0∞} {g : Move → ℝ≥0∞}
    (hfg : ∀ m t e, (m, t) ∈ moves args c →
      M.fst.arc? e = some (stateNum ord args c, moveArc W ord args c (m, t)) → f e = g m) :
    (tsum fun e : M.fst.group (stateNum ord args c) 0 => f e) =
      ((moves args c).map fun m => g m.1).sum := by
  have hstate := machine_state h hc
  have hlabels : ∀ a ∈ (moves args c).map (moveArc W ord args c), a.ilabel = 0 := by
    intro a ha
    obtain ⟨⟨m, t⟩, hm, rfl⟩ := List.mem_map.mp ha
    exact ilabel_of_bold hV hb hm
  rw [VectorFst.tsum_group, VectorFst.groupArcs, hstate, Option.elim_some,
    labelled_eq_range' hlabels]
  congr 1
  apply List.ext_getElem
  · simp
  · intro k hk hk'
    rw [List.length_map] at hk'
    rw [List.getElem_map, List.getElem_map, List.getElem_range', Nat.one_mul]
    apply hfg _ _ _ (List.getElem_mem hk')
    exact VectorFst.arc?_eq_some_iff.mpr ⟨_, k, hstate, by simp [hk'], rfl⟩

/-- The arcs of a full context have the probabilities of the edits that can be made there. -/
theorem tsum_group_window (h : contextualEdit W ord args = some M) (hV : args.Valid)
    (hu : args.sizes.ulcMax ≤ 1) (hl : args.sizes.llcMax ≤ 1) (hr : 1 ≤ args.sizes.urcMax)
    (p : EditModel) {left right low : List Sym} (hleft : ∀ s ∈ left ++ right, s ∈ args.V1)
    (hlow : ∀ s ∈ low, s ∈ args.V2) :
    (tsum fun e : M.fst.group (stateNum ord args (window args left right low)) 0 =>
      M.probs args p e) =
      ((options args right).map (p (window args left right low))).sum := by
  have hb : isBold args.sizes (window args left right low) := isBold_window hu hl left right low
  have hc := window_isKey hV hu hl hleft hlow
  rw [tsum_group_bold h hV.unreserved hc hb (g := fun m => p (window args left right low) m.edit?),
    ← map_moves_window hV hu hl hr (fun s hs => hleft s (List.mem_append_right _ hs)), List.map_map]
  · rfl
  · intro m t e hm he
    rw [probs_of_move h hV.unreserved hc hm he, if_neg]
    intro hact
    have hlabel := ilabel_of_bold hV.unreserved hb hm
    cases m with
    | abs v => exact (mem_moves_abs.mp hm).1 hb
    | _ => cases hact

theorem group_window_nonempty (h : contextualEdit W ord args = some M) (hV : args.Valid)
    (hu : args.sizes.ulcMax ≤ 1) (hl : args.sizes.llcMax ≤ 1) (hr : 1 ≤ args.sizes.urcMax)
    {left right low : List Sym} (hleft : ∀ s ∈ left ++ right, s ∈ args.V1)
    (hlow : ∀ s ∈ low, s ∈ args.V2) :
    (M.fst.group (stateNum ord args (window args left right low)) 0).Nonempty := by
  have hb : isBold args.sizes (window args left right low) := isBold_window hu hl left right low
  have hc := window_isKey hV hu hl hleft hlow
  have hne : moves args (window args left right low) ≠ [] := by
    intro hnil
    have hmap : _ = options args right :=
      @map_moves_window args hV hu hl hr left right low fun s hs =>
      hleft s (List.mem_append_right _ hs)
    rw [hnil, List.map_nil] at hmap
    cases right <;> simp [options] at hmap
  obtain ⟨⟨m, t⟩, hm⟩ := List.exists_mem_of_ne_nil _ hne
  obtain ⟨e, he⟩ := exists_arc?_of_move h hc hm
  exact ⟨e, _, he, ilabel_of_bold hV.unreserved hb hm⟩

/-! ### Normalised arcs and normalised models -/

theorem action_abs_iff {m : Move} : m.action = .ABS ↔ ∃ v, m = .abs v := by
  cases m <;> simp [Move.action]

/-- Reading ahead is the only arc of its group. -/
theorem group_of_abs (h : contextualEdit W ord args = some M) (hV : args.Valid) (hc : IsKey args c)
    {v : Sym} {t : Option Context} (hm : (.abs v, t) ∈ moves args c) {e : ℕ}
    (he : M.fst.arc? e = some (stateNum ord args c, moveArc W ord args c (.abs v, t))) :
    M.fst.group (stateNum ord args c) (idIn args v) = {e} :=
  group_abs h hV he (record?_of_move h hV.unreserved hc hm he) rfl

theorem tsum_group_abs (h : contextualEdit W ord args = some M) (hV : args.Valid)
    (hc : IsKey args c) {v : Sym} {t : Option Context} (hm : (.abs v, t) ∈ moves args c) {e : ℕ}
    (he : M.fst.arc? e = some (stateNum ord args c, moveArc W ord args c (.abs v, t)))
    (f : ℕ → ℝ≥0∞) :
    (tsum fun e : M.fst.group (stateNum ord args c) (moveArc W ord args c (.abs v, t)).ilabel =>
      f e) = f e :=
  (tsum_congr_set_coe f (group_of_abs h hV hc hm he)).trans (tsum_singleton e f)

theorem normalised_probs_iff (h : contextualEdit W ord args = some M) (hV : args.Valid)
    (hu : args.sizes.ulcMax ≤ 1) (hl : args.sizes.llcMax ≤ 1) (hr : 1 ≤ args.sizes.urcMax) :
    M.fst.Normalised (M.probs args p) ↔ p.Normalised args := by
  constructor
  · intro hpr left right low hleft hlow
    rw [← tsum_group_window h hV hu hl hr p hleft hlow]
    exact hpr _ _ (group_window_nonempty h hV hu hl hr hleft hlow)
  · rintro hp q l ⟨e, a, he, rfl⟩
    obtain ⟨c, ⟨m, t⟩, hc, rfl, hm, rfl⟩ := exists_move_of_arc? h he
    by_cases hlabel : m.ilabel args = 0
    · have hb := isBold_of_ilabel hV.unreserved hu hl hc hm hlabel
      obtain ⟨left, right, low, hleft, hlow, rfl⟩ := exists_window hu hl hc hb
      have hset := congrArg (M.fst.group (stateNum ord args (window args left right low))) hlabel
      refine (tsum_congr_set_coe _ hset).trans ?_
      rw [tsum_group_window h hV hu hl hr p hleft hlow]
      exact hp left right low hleft hlow
    · obtain ⟨v, rfl⟩ := (ilabel_ne_zero_iff hV.unreserved hm).mp hlabel
      refine (tsum_group_abs h hV hc hm he (M.probs args p)).trans ?_
      rw [probs_of_move h hV.unreserved hc hm he]
      exact if_pos rfl

/-! ### Every normalised machine has a model -/

/-- The model of arc probabilities: an edit has those of its arc. -/
noncomputable def modelOf (args : Args) (M : Machine W) (pr : ℕ → ℝ≥0∞) : EditModel := fun c o =>
  tsum fun e : {e | ∃ r, M.record? args e = some r ∧ r.source = some c ∧ r.action ≠ .ABS ∧
    r.edit? = o} => pr e

theorem modelOf_of_move (h : contextualEdit W ord args = some M) (hV : args.Valid)
    (hc : IsKey args c) {m : Move} {t : Option Context} (hm : (m, t) ∈ moves args c)
    (hact : m.action ≠ .ABS) {e : ℕ}
    (he : M.fst.arc? e = some (stateNum ord args c, moveArc W ord args c (m, t))) :
    modelOf args M pr c m.edit? = pr e := by
  have hrecord := record?_of_move h hV.unreserved hc hm he
  have hset : {e | ∃ r, M.record? args e = some r ∧ r.source = some c ∧ r.action ≠ .ABS ∧
    r.edit? = m.edit?} =
      {e} := by
    ext e'
    constructor
    · rintro ⟨r, hr, hs, hact', hedit⟩
      obtain ⟨c', m', t', hc', hm', he', rfl⟩ := exists_move_of_record? h hV.unreserved hr
      obtain rfl : c' = c := Option.some.inj hs
      obtain rfl : m' = m := by
        apply move_eq_of_edit? hact' hact
        rw [← hedit]
        cases m' <;> rfl
      obtain rfl := target_unique hm hm'
      exact arc_unique h hV (completes_of_contextualEdit h hV.unreserved) hc hm he' he
    · rintro rfl
      refine ⟨_, hrecord, rfl, hact, ?_⟩
      cases m <;> rfl
  rw [modelOf, tsum_congr_set_coe pr hset, tsum_singleton e pr]

theorem probs_modelOf (h : contextualEdit W ord args = some M) (hV : args.Valid)
    (hpr : M.fst.Normalised pr) {e : ℕ} (he : e < M.fst.numArcs) :
    M.probs args (modelOf args M pr) e = pr e := by
  obtain ⟨q, a, ha⟩ := VectorFst.exists_arc? he
  obtain ⟨c, ⟨m, t⟩, hc, rfl, hm, rfl⟩ := exists_move_of_arc? h ha
  rw [probs_of_move h hV.unreserved hc hm ha]
  by_cases hact : m.action = .ABS
  · obtain ⟨v, rfl⟩ := action_abs_iff.mp hact
    rw [if_pos hact, ← tsum_group_abs h hV hc hm ha pr]
    exact (hpr _ _ ⟨e, _, ha, rfl⟩).symm
  · rw [if_neg hact, modelOf_of_move h hV hc hm hact ha]

/-- The transducer computes the models of the next edit: its normalised arc probabilities are
those of the normalised models, and the paths that relate two strings weigh as much as the
scripts that make the one of the other, whatever the order of the states is. -/
theorem computes_models (W : Type*) [One W] (ord : HashOrder) (args : Args) (hV : args.Valid)
    (hu : args.sizes.ulcMax ≤ 1) (hl : args.sizes.llcMax ≤ 1) (hr : 1 ≤ args.sizes.urcMax) :
    ∃ M, contextualEdit W ord args = some M ∧
      (∀ p : EditModel, M.fst.Normalised (M.probs args p) ↔ p.Normalised args) ∧
      (∀ pr, M.fst.Normalised pr → ∃ p : EditModel, p.Normalised args ∧
        ∀ e < M.fst.numArcs, M.probs args p e = pr e) ∧
      ∀ (p : EditModel) (x y : List Sym), (∀ s ∈ x, s ∈ args.V1) → (∀ s ∈ y, s ∈ args.V2) →
        totalWeight (M.probs args p) {path | M.Labels args (x ++ padding args) y path} =
          editProb args p x y := by
  obtain ⟨M, h⟩ := exists_contextualEdit W ord (.inl hu : Completes args)
  refine ⟨M, h, fun p => normalised_probs_iff h hV hu hl hr, fun pr hpr => ?_, fun p x y hx hy =>
    totalWeight_labels h hV hu hl hr p hx hy⟩
  have hprobs : ∀ e < M.fst.numArcs, M.probs args (modelOf args M pr) e = pr e := fun e =>
    probs_modelOf h hV hpr
  exact ⟨modelOf args M pr,
    (normalised_probs_iff h hV hu hl hr).mp ((VectorFst.normalised_congr hprobs).mpr hpr), hprobs⟩

theorem computes_models_one_two_one : ∃ M, contextualEdit ℕ insertionOrder
    (smallArgs ⟨1, 2, 1⟩) = some M ∧
    ∃ p : EditModel, p.Normalised (smallArgs ⟨1, 2, 1⟩) ∧
      totalWeight (M.probs (smallArgs ⟨1, 2, 1⟩) p)
        {path | M.Labels (smallArgs ⟨1, 2, 1⟩) ["a", "#", "#"] ["b"] path} =
          editProb (smallArgs ⟨1, 2, 1⟩) p ["a"] ["b"] := by
  obtain ⟨M, h, -, hmodel, hweight⟩ := computes_models ℕ insertionOrder (smallArgs ⟨1, 2, 1⟩)
    (smallArgs_valid _) le_rfl le_rfl (by decide)
  obtain ⟨p, hp, -⟩ := hmodel _ (uniform_normalised M.fst)
  exact ⟨M, h, p, hp, hweight p ["a"] ["b"] (by decide) (by decide)⟩

end StochasticEdit.Pipeline
