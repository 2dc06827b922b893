import StochasticEdit.Pipeline.EditModel
import StochasticEdit.Trainer.Training

/-! The model that is trained. The features of an edit have names, which the numbering of the
arcs and of the features does not change, and the weights of the named features make a
log-linear model of the next edit. The reweighted transducer computes this model. -/

namespace StochasticEdit.Pipeline

open Wfst Generator Features Trainer Text
open scoped ENNReal

/-! ### The model -/

/-- What `arc_to_action` says about an edit, apart from its target. -/
def recordOf (c : Context) : Option Edit → Record
  | none => ⟨some c, none, epsilon, epsilon, .FINAL⟩
  | some (.ins v) => ⟨some c, none, epsilon, v, .INS⟩
  | some (.sub v) => ⟨some c, none, epsilon, v, .SUB⟩
  | some .del => ⟨some c, none, epsilon, epsilon, .DEL⟩

/-- The names of the features of an edit. -/
def editFeatures (c : Context) (o : Option Edit) : List Str := fired (recordOf c o)

/-- The names of all features. -/
def featureNames (args : Args) : Set Str :=
  {f | ∃ left right low, (∀ s ∈ left ++ right, s ∈ args.V1) ∧ (∀ s ∈ low, s ∈ args.V2) ∧
    ∃ o ∈ options args right, f ∈ editFeatures (window args left right low) o}

/-- The cost of an edit. -/
def editCost (w : Str → ℝ) (c : Context) (o : Option Edit) : ℝ := ((editFeatures c o).map w).sum

/-- The edits that can be made in a context. -/
def optionsAt (args : Args) (c : Context) : List (Option Edit) :=
  options args (c.urc.filter fun s => s ≠ stopStartChar)

/-- The log-linear model with the weights `w`. -/
noncomputable def logLinear (args : Args) (w : Str → ℝ) : EditModel := fun c o =>
  ENNReal.ofReal (Real.exp (-editCost w c o)) *
    (((optionsAt args c).map fun o => ENNReal.ofReal (Real.exp (-editCost w c o))).sum)⁻¹

variable {args : Args} {w : Str → ℝ} {c : Context}

theorem options_congr {right right' : List Sym} (h : right = [] ↔ right' = []) :
    options args right = options args right' := by
  cases right with
  | nil => rw [h.mp rfl]
  | cons u right =>
    cases right' with
    | nil => exact absurd (h.mpr rfl) (List.cons_ne_nil u right)
    | cons u' right' => rfl

theorem optionsAt_window (hV : args.Valid) (hr : 1 ≤ args.sizes.urcMax) {left right low : List Sym}
    (hright : ∀ s ∈ right, s ∈ args.V1) :
    optionsAt args (window args left right low) = options args right := by
  apply options_congr
  obtain ⟨n, hn⟩ := Nat.exists_eq_add_of_le' hr
  rcases right with _ | ⟨u, right⟩
  · refine iff_of_true (List.filter_eq_nil_iff.mpr fun s hs => ?_) rfl
    have hmem : s ∈ padding args := List.mem_of_mem_take hs
    simp [List.eq_of_mem_replicate hmem]
  · refine iff_of_false (fun hnil => ?_) (List.cons_ne_nil u right)
    have hu : u ∈ (window args left (u :: right) low).urc := by simp [window, hn]
    have hsharp : u ≠ stopStartChar := fun hs => hV.upper.sharp (hs ▸ hright u List.mem_cons_self)
    exact List.filter_eq_nil_iff.mp hnil u hu (decide_eq_true hsharp)

theorem options_ne_nil (args : Args) (right : List Sym) : options args right ≠ [] := by
  cases right <;> simp [options]

theorem sum_exp_ne_zero {α : Type*} {l : List α} (hl : l ≠ []) (f : α → ℝ) :
    (l.map fun x => ENNReal.ofReal (Real.exp (f x))).sum ≠ 0 := by
  obtain ⟨x, l, rfl⟩ := List.exists_cons_of_ne_nil hl
  rw [List.map_cons, List.sum_cons]
  exact fun h => (ENNReal.ofReal_pos.mpr (Real.exp_pos (f x))).ne' (add_eq_zero.mp h).1

theorem sum_exp_ne_top {α : Type*} (l : List α) (f : α → ℝ) :
    (l.map fun x => ENNReal.ofReal (Real.exp (f x))).sum ≠ ⊤ := by
  induction l with
  | nil => exact ENNReal.zero_ne_top
  | cons x l ih =>
    rw [List.map_cons, List.sum_cons]
    exact ENNReal.add_ne_top.mpr ⟨ENNReal.ofReal_ne_top, ih⟩

/-- The model is normalised and gives every edit a chance. -/
theorem logLinear_normalised (hV : args.Valid) (hr : 1 ≤ args.sizes.urcMax) (w : Str → ℝ) :
    (logLinear args w).Normalised args := by
  intro left right low hleft _
  have hoptions : optionsAt args (window args left right low) = options args right :=
    optionsAt_window hV hr fun s hs => hleft s (List.mem_append_right _ hs)
  unfold logLinear
  rw [List.sum_map_mul_right, hoptions]
  exact ENNReal.mul_inv_cancel (sum_exp_ne_zero (options_ne_nil args right) _) (sum_exp_ne_top _ _)

theorem logLinear_ne_zero (args : Args) (w : Str → ℝ) (c : Context) (o : Option Edit) :
    logLinear args w c o ≠ 0 :=
  mul_ne_zero (ENNReal.ofReal_pos.mpr (Real.exp_pos _)).ne'
    (ENNReal.inv_ne_zero.mpr (sum_exp_ne_top _ _))

theorem logLinear_ne_top (args : Args) (w : Str → ℝ) (c : Context) (o : Option Edit) :
    logLinear args w c o ≠ ⊤ :=
  ENNReal.mul_ne_top ENNReal.ofReal_ne_top
    (ENNReal.inv_ne_top.mpr (sum_exp_ne_zero (options_ne_nil args _) _))

/-! ### The arcs -/

section Arcs
variable {ord : HashOrder} {M : Machine LogWeight}

theorem fired_move {m : Move} (hact : m.action ≠ .ABS) (t : Option Context) :
    fired ⟨some c, t, m.isym, m.osym, m.action⟩ = editFeatures c m.edit? := by
  cases m with
  | abs v => exact absurd rfl hact
  | _ => rfl

theorem exp_groupTotal (s : ℕ → ℝ) (F : VectorFst LogWeight) (q : ℕ) (l : ℤ) :
    EReal.exp (groupTotal logsum s F q l) = tsum fun e : F.group q l =>
      ENNReal.ofReal (Real.exp (-s e)) := by
  rw [groupTotal, exp_foldl_logsum, negDblMax, EReal.exp_bot, zero_add, List.map_map,
    VectorFst.tsum_group F q l fun e => ENNReal.ofReal (Real.exp (-s e))]
  refine congrArg List.sum (List.map_congr_left fun e _ => ?_)
  exact EReal.exp_coe (-s e)

/-- Over a full context the scores of the arcs are the costs of the edits. -/
theorem tsum_exp_options (h : contextualEdit LogWeight ord args = some M) (hV : args.Valid)
    (hu : args.sizes.ulcMax ≤ 1) (hl : args.sizes.llcMax ≤ 1) (hr : 1 ≤ args.sizes.urcMax)
    {s : ℕ → ℝ} (hc : IsKey args c) (hb : isBold args.sizes c)
    (hs : ∀ m t e, (m, t) ∈ moves args c → m.action ≠ .ABS → M.fst.arc? e = some
      (stateNum ord args c, moveArc LogWeight ord args c (m, t)) → s e = editCost w c m.edit?) :
    (tsum fun e : M.fst.group (stateNum ord args c) 0 => ENNReal.ofReal (Real.exp (-s e))) =
      ((optionsAt args c).map fun o => ENNReal.ofReal (Real.exp (-editCost w c o))).sum := by
  let f (e : ℕ) : ℝ≥0∞ := ENNReal.ofReal (Real.exp (-s e))
  let g (m : Move) : ℝ≥0∞ := ENNReal.ofReal (Real.exp (-editCost w c m.edit?))
  have hfg : ∀ m t e, (m, t) ∈ moves args c →
      M.fst.arc? e = some (stateNum ord args c, moveArc LogWeight ord args c (m, t)) →
        f e = g m := by
    intro m t e hm he
    have hact : m.action ≠ .ABS := by
      intro hact
      obtain ⟨v, rfl⟩ := action_abs_iff.mp hact
      exact (mem_moves_abs.mp hm).1 hb
    show ENNReal.ofReal (Real.exp (-s e)) = _
    rw [hs m t e hm hact he]
  refine (tsum_group_bold h hV.unreserved hc hb hfg).trans ?_
  obtain ⟨left, right, low, hleft, -, rfl⟩ := exists_window hu hl hc hb
  have hright : ∀ s ∈ right, s ∈ args.V1 := fun s hs => hleft s (List.mem_append_right _ hs)
  rw [optionsAt_window hV hr hright, ← map_moves_window hV hu hl hr hright, List.map_map]
  rfl

/-- Scores that are costs of edits make the arc weights of the log-linear model. -/
theorem newWeight_eq_probs (h : contextualEdit LogWeight ord args = some M) (hV : args.Valid)
    (hu : args.sizes.ulcMax ≤ 1) (hl : args.sizes.llcMax ≤ 1) (hr : 1 ≤ args.sizes.urcMax)
    {s : ℕ → ℝ}
    (hs : ∀ c m t e, IsKey args c → (m, t) ∈ moves args c → m.action ≠ .ABS → M.fst.arc? e =
      some (stateNum ord args c, moveArc LogWeight ord args c (m, t)) → s e = editCost w c m.edit?)
    {e : ℕ} (he : e < M.fst.numArcs) :
    newWeight logsum s M.fst e = M.probs args (logLinear args w) e := by
  obtain ⟨q, a, ha⟩ := VectorFst.exists_arc? he
  obtain ⟨c, ⟨m, t⟩, hc, rfl, hm, rfl⟩ := exists_move_of_arc? h ha
  let f (e : ℕ) : ℝ≥0∞ := ENNReal.ofReal (Real.exp (-s e))
  have hexp : EReal.exp (-s e) = f e := EReal.exp_coe (-s e)
  rw [newWeight_eq ha, exp_groupTotal, probs_of_move h hV.unreserved hc hm ha, hexp]
  by_cases hact : m.action = .ABS
  · obtain ⟨v, rfl⟩ := action_abs_iff.mp hact
    rw [if_pos hact]
    refine (congrArg (fun x => f e * x⁻¹) (tsum_group_abs h hV hc hm ha f)).trans ?_
    exact ENNReal.mul_inv_cancel (ENNReal.ofReal_pos.mpr (Real.exp_pos _)).ne' ENNReal.ofReal_ne_top
  · have hlabel : m.ilabel args = 0 := by
      by_contra hne
      obtain ⟨v, rfl⟩ := (ilabel_ne_zero_iff hV.unreserved hm).mp hne
      exact hact rfl
    have hgroup := congrArg (M.fst.group (stateNum ord args c)) hlabel
    have hsum := tsum_exp_options h hV hu hl hr hc
      (isBold_of_ilabel hV.unreserved hu hl hc hm hlabel)
      fun m t e => hs c m t e hc
    have hscore : s e = editCost w c m.edit? := hs c m t e hc hm hact ha
    rw [if_neg hact]
    refine (congrArg (fun x => f e * x⁻¹) ((tsum_congr_set_coe f hgroup).trans hsum)).trans ?_
    rw [logLinear, ← hscore]

end Arcs

end StochasticEdit.Pipeline
