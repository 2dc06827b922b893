import StochasticEdit.Wfst.Walk
import Mathlib.Topology.Algebra.InfiniteSum.ENNReal
import Mathlib.Order.CompletePartialOrder
import Mathlib.Order.WellFoundedSet

/-! Sums over all paths of a graph whose arcs have weights in the extended
non-negative reals, where every sum exists and may be reordered. The main result
is the forward-backward identity: the paths through an arc, counted as often as
they use it, are summed by the product of a forward sum, the arc and a backward
sum. -/

namespace StochasticEdit.Wfst

open scoped ENNReal

variable {Q E : Type*}

/-- A list is empty or starts with an element. -/
theorem tsum_list (f : List E → ℝ≥0∞) :
    tsum f = f [] + tsum fun e => tsum fun p => f (e :: p) := by
  let split : Unit ⊕ E × List E ≃ List E :=
    { toFun := fun s => s.elim (fun _ => []) fun ep => ep.1 :: ep.2
      invFun := fun p => p.head?.elim (.inl ()) fun e => .inr (e, p.tail)
      left_inv := by rintro (_ | _) <;> rfl
      right_inv := by rintro (_ | _) <;> rfl }
  rw [← split.tsum_eq f, ← ENNReal.tsum_prod]
  have hnil : HasSum ((fun s => f (split s)) ∘ Sum.inl) (f []) := by
    show HasSum ((fun s => f (split s)) ∘ Sum.inl) (((fun s => f (split s)) ∘ Sum.inl) ())
    exact hasSum_unique _
  have hcons : HasSum ((fun s => f (split s)) ∘ Sum.inr)
      (tsum fun ep : E × List E => f (ep.1 :: ep.2)) :=
    ENNReal.summable.hasSum
  exact (hnil.sum hcons).tsum_eq

/-- The weight of a path, without the final state. -/
noncomputable def pathWeight (w : E → ℝ≥0∞) (p : List E) : ℝ≥0∞ := (p.map w).prod

@[simp] theorem pathWeight_nil (w : E → ℝ≥0∞) : pathWeight w [] = 1 := rfl

@[simp] theorem pathWeight_cons (w : E → ℝ≥0∞) (e : E) (p : List E) :
    pathWeight w (e :: p) = w e * pathWeight w p := List.prod_cons

theorem pathWeight_append (w : E → ℝ≥0∞) (p p' : List E) :
    pathWeight w (p ++ p') = pathWeight w p * pathWeight w p' := by
  simp [pathWeight]

theorem pathWeight_ne_top {w : E → ℝ≥0∞} {p : List E} (h : ∀ e ∈ p, w e ≠ ⊤) :
    pathWeight w p ≠ ⊤ := by
  induction p with
  | nil => exact ENNReal.one_ne_top
  | cons e p ih =>
    rw [pathWeight_cons]
    exact ENNReal.mul_ne_top (h e (by simp)) (ih fun f hf => h f (by simp [hf]))

/-- Over finitely many arcs, none of which weighs more than 1, there is a path of most weight. The
weight of a path depends on how often it takes each arc, and of these numbers there are least
ones. -/
theorem exists_heaviest [DecidableEq E] {w : E → ℝ≥0∞} (hw : ∀ e, w e ≤ 1) (A : Finset E)
    {P : Set (List E)} (hP : ∀ p ∈ P, ∀ e ∈ p, e ∈ A) (hne : P.Nonempty) :
    ∃ p ∈ P, ∀ p' ∈ P, pathWeight w p' ≤ pathWeight w p := by
  let counts (p : List E) : A → ℕ := fun e => p.count e.1
  let g (c : A → ℕ) : (ℝ≥0∞)ᵒᵈ := OrderDual.toDual (∏ e : A, w e ^ c e)
  have hg : Monotone g := by
    intro c c' hcc'
    apply OrderDual.toDual_le_toDual.mpr
    apply Finset.prod_le_prod'
    intro e _
    exact pow_le_pow_right_of_le_one' (hw e) (hcc' e)
  have hweight : ∀ p ∈ P, OrderDual.toDual (pathWeight w p) = g (counts p) := by
    intro p hp
    have hsub : p.toFinset ⊆ A := fun e he => hP p hp e (List.mem_toFinset.mp he)
    apply congrArg OrderDual.toDual
    unfold pathWeight
    rw [Finset.prod_list_map_count, Finset.prod_subset hsub, ← Finset.prod_coe_sort A]
    intro e _ he
    rw [List.count_eq_zero_of_not_mem fun h => he (List.mem_toFinset.mpr h), pow_zero]
  have hwf : (g '' (counts '' P)).IsWF :=
    ((Set.isPWO_of_wellQuasiOrderedLE _).image_of_monotone hg).isWF
  have hsome : (g '' (counts '' P)).Nonempty := (hne.image _).image _
  obtain ⟨-, ⟨p, hp, rfl⟩, hmin⟩ := hwf.min_mem hsome
  refine ⟨p, hp, fun p' hp' => ?_⟩
  have hle := hwf.min_le hsome ⟨_, ⟨p', hp', rfl⟩, rfl⟩
  rw [← hmin, ← hweight p hp, ← hweight p' hp'] at hle
  exact OrderDual.toDual_le_toDual.mp hle

/-- The weight of a set of paths. -/
noncomputable def totalWeight (w : E → ℝ≥0∞) (P : Set (List E)) : ℝ≥0∞ :=
  tsum fun p : P => pathWeight w p

theorem totalWeight_eq (w : E → ℝ≥0∞) (P : Set (List E)) :
    totalWeight w P = tsum (P.indicator (pathWeight w)) := tsum_subtype P (pathWeight w)

theorem totalWeight_congr {w w' : E → ℝ≥0∞} {P : Set (List E)} (h : ∀ p ∈ P, ∀ e ∈ p, w e = w' e) :
    totalWeight w P = totalWeight w' P :=
  tsum_congr fun p => congrArg List.prod (List.map_congr_left (h p p.2))

theorem totalWeight_union {w : E → ℝ≥0∞} {P P' : Set (List E)} (h : Disjoint P P') :
    totalWeight w (P ∪ P') = totalWeight w P + totalWeight w P' := by
  rw [totalWeight_eq, totalWeight_eq, totalWeight_eq, Set.indicator_union_of_disjoint h]
  exact ENNReal.tsum_add

section Splits
variable [DecidableEq E]

/-- The ways to write a list around one of its elements are its occurrences. -/
theorem tsum_splits (e : E) (p : List E) :
    (tsum fun a => tsum fun b => if a ++ e :: b = p then (1 : ℝ≥0∞) else 0) = p.count e := by
  induction p with
  | nil => simp
  | cons x p ih =>
    have hhead : (tsum fun b => if e :: b = x :: p then (1 : ℝ≥0∞) else 0) = if x = e then 1
        else 0 := by
      by_cases hx : x = e
      · simp only [hx, List.cons.injEq, true_and, if_true]
        exact tsum_ite_eq p _
      · have hne : e ≠ x := fun h => hx h.symm
        simp [hx, hne]
    have htail : (tsum fun y => tsum fun a => tsum fun b =>
        if y :: (a ++ e :: b) = x :: p then (1 : ℝ≥0∞) else 0) = p.count e := by
      rw [tsum_eq_single x, ← ih]
      · simp
      · intro y hy
        simp [hy]
    rw [tsum_list, List.count_cons]
    simp only [List.nil_append, List.cons_append]
    rw [hhead, htail, add_comm]
    by_cases hx : x = e <;> simp [hx]

/-- Summing over the splits of a list around `e` counts it once for each `e`. -/
theorem tsum_split_eq (e : E) (f : List E → ℝ≥0∞) :
    (tsum fun a => tsum fun b => f (a ++ e :: b)) = tsum fun p => p.count e * f p := by
  have hone (a b : List E) : f (a ++ e :: b) = tsum fun p =>
      (if a ++ e :: b = p then 1 else 0) * f p := by
    rw [tsum_eq_single (a ++ e :: b)]
    · simp
    · intro p hp
      simp [hp.symm]
  simp only [hone, ← tsum_splits, ← ENNReal.tsum_mul_right]
  calc (tsum fun a => tsum fun b => tsum fun p => (if a ++ e :: b = p then 1 else 0) * f p)
      = tsum fun a => tsum fun p => tsum fun b => (if a ++ e :: b = p then 1 else 0) * f p :=
        tsum_congr fun a => ENNReal.tsum_comm
    _ = tsum fun p => tsum fun a => tsum fun b => (if a ++ e :: b = p then 1 else 0) * f p :=
        ENNReal.tsum_comm

end Splits

/-! ### Forward and backward sums -/

section ForwardBackward
variable [DecidableEq Q] (ends : E → Option (Q × Q)) (w : E → ℝ≥0∞) (fin : Q → ℝ≥0∞)

/-- The weight of a path from `q` with its final weight, 0 if there is no such path. -/
noncomputable def pathValue (q : Q) (p : List E) : ℝ≥0∞ :=
  (walk ends q p).elim 0 fun r => pathWeight w p * fin r

/-- The weight of the paths from `q` to final states. -/
noncomputable def backward (q : Q) : ℝ≥0∞ := tsum (pathValue ends w fin q)

/-- The weight of the paths from `q₀` to `q`. -/
noncomputable def forward (q₀ q : Q) : ℝ≥0∞ :=
  tsum fun p => if walk ends q₀ p = some q then pathWeight w p else 0

variable {ends w fin}

theorem pathValue_eq_zero {q : Q} {p : List E} (h : walk ends q p = none) :
    pathValue ends w fin q p = 0 := by
  rw [pathValue, h]
  rfl

theorem pathValue_of_walk {q r : Q} {p : List E} (h : walk ends q p = some r) :
    pathValue ends w fin q p = pathWeight w p * fin r := by
  rw [pathValue, h]
  rfl

theorem pathValue_append_cons {q r : Q} {e : E} (he : ends e = some (q, r)) (q₀ : Q)
    (a b : List E) : pathValue ends w fin q₀ (a ++ e :: b) =
      (if walk ends q₀ a = some q then pathWeight w a else 0) * w e * pathValue ends w fin r b := by
  by_cases ha : walk ends q₀ a = some q
  · rw [if_pos ha]
    have hwalk : walk ends q₀ (a ++ e :: b) = walk ends r b := by
      rw [walk_append, ha, Option.bind_some, walk_cons_of_ends he]
    rw [pathValue, pathValue, hwalk, pathWeight_append, pathWeight_cons]
    cases walk ends r b with
    | none => simp
    | some s => simp only [Option.elim_some]; ring
  · rw [if_neg ha, zero_mul, zero_mul]
    apply pathValue_eq_zero
    rw [walk_append]
    rcases hr : walk ends q₀ a with _ | q'
    · rfl
    · have hne : q ≠ q' := fun h => ha (h ▸ hr)
      rw [Option.bind_some, walk]
      simp [he, hne]

/-- The forward-backward identity. -/
theorem forward_mul_backward [DecidableEq E] {q r : Q} {e : E}
    (he : ends e = some (q, r)) (q₀ : Q) :
    forward ends w q₀ q * w e * backward ends w fin r =
      tsum fun p => p.count e * pathValue ends w fin q₀ p := by
  rw [← tsum_split_eq e (pathValue ends w fin q₀)]
  simp only [pathValue_append_cons he, ENNReal.tsum_mul_left, ENNReal.tsum_mul_right]
  rfl

/-! ### Convergence -/

/-- The walks from a state to itself add up to that of the empty walk exactly if no other
one has weight. -/
theorem forward_self_eq_one_iff {q : Q} : forward ends w q q = 1 ↔
    ∀ p, walk ends q p = some q → pathWeight w p ≠ 0 → p = [] := by
  have hsplit : forward ends w q q = 1 + tsum fun e => tsum fun p =>
      if walk ends q (e :: p) = some q then pathWeight w (e :: p) else 0 := by
    rw [forward, tsum_list, walk_nil, if_pos rfl, pathWeight_nil]
  have hcancel : forward ends w q q = 1 ↔ (tsum fun e => tsum fun p =>
      if walk ends q (e :: p) = some q then pathWeight w (e :: p) else 0) = 0 := by
    rw [hsplit]
    nth_rewrite 2 [← add_zero (1 : ℝ≥0∞)]
    exact ENNReal.add_right_inj ENNReal.one_ne_top
  rw [hcancel, ENNReal.tsum_eq_zero]
  simp only [ENNReal.tsum_eq_zero]
  constructor
  · intro h p hp hne
    rcases p with _ | ⟨e, p⟩
    · rfl
    · have hzero := h e p
      rw [if_pos hp] at hzero
      exact absurd hzero hne
  · intro h e p
    split_ifs with hp
    · by_contra hne
      exact List.cons_ne_nil e p (h _ hp hne)
    · rfl

theorem pathValue_append {q₀ q : Q} {a : List E} (ha : walk ends q₀ a = some q) (b : List E) :
    pathValue ends w fin q₀ (a ++ b) = pathWeight w a * pathValue ends w fin q b := by
  rw [pathValue, pathValue, walk_append, ha, Option.bind_some, pathWeight_append]
  cases walk ends q b with
  | none => exact (mul_zero _).symm
  | some r => exact mul_assoc _ _ _

/-- All ways to reach a state, followed by one path from there. -/
theorem forward_mul_pathValue_le (q₀ q : Q) (b : List E) :
    forward ends w q₀ q * pathValue ends w fin q b ≤ backward ends w fin q₀ := by
  rw [forward, ← ENNReal.tsum_mul_right]
  calc tsum (fun a => (if walk ends q₀ a = some q then pathWeight w a else 0) *
    pathValue ends w fin q b)
      ≤ tsum fun a => pathValue ends w fin q₀ (a ++ b) := by
        refine ENNReal.tsum_le_tsum fun a => ?_
        split_ifs with ha
        · exact (pathValue_append ha b).ge
        · rw [zero_mul]
          exact zero_le
    _ ≤ backward ends w fin q₀ :=
        ENNReal.tsum_comp_le_tsum_of_injective (List.append_left_injective b) _

/-- One way to reach a state, followed by all paths from there. -/
theorem pathWeight_mul_backward_le {q₀ q : Q} {a : List E} (ha : walk ends q₀ a = some q) :
    pathWeight w a * backward ends w fin q ≤ backward ends w fin q₀ := by
  rw [backward, ← ENNReal.tsum_mul_left]
  calc tsum (fun b => pathWeight w a * pathValue ends w fin q b)
      = tsum fun b => pathValue ends w fin q₀ (a ++ b) := tsum_congr fun b =>
        (pathValue_append ha b).symm
    _ ≤ backward ends w fin q₀ :=
        ENNReal.tsum_comp_le_tsum_of_injective (List.append_right_injective a) _

theorem forward_ne_top {q₀ q : Q} {b : List E} (hb : pathValue ends w fin q b ≠ 0)
    (hsum : backward ends w fin q₀ ≠ ⊤) : forward ends w q₀ q ≠ ⊤ := by
  intro htop
  have hle := @forward_mul_pathValue_le Q E _ ends w fin q₀ q b
  rw [htop, ENNReal.top_mul hb] at hle
  exact hsum (top_le_iff.mp hle)

/-- If the paths have a finite sum, then so have those through an arc, counted as often
as they use it. -/
theorem forward_mul_backward_ne_top {q₀ q r : Q} {e : E} (he : ends e = some (q, r))
    (hsum : backward ends w fin q₀ ≠ ⊤) :
    forward ends w q₀ q * w e * backward ends w fin r ≠ ⊤ := by
  by_cases hforward : forward ends w q₀ q = 0
  · rw [hforward, zero_mul, zero_mul]
    exact ENNReal.zero_ne_top
  by_cases hbackward : w e * backward ends w fin r = 0
  · rw [mul_assoc, hbackward, mul_zero]
    exact ENNReal.zero_ne_top
  obtain ⟨a, ha⟩ : ∃ a, (if walk ends q₀ a = some q then pathWeight w a else 0) ≠ 0 := by
    by_contra hno
    push Not at hno
    exact hforward (ENNReal.tsum_eq_zero.mpr hno)
  split_ifs at ha with hwalk
  · obtain ⟨hw, hback⟩ := mul_ne_zero_iff.mp hbackward
    obtain ⟨b, hb⟩ : ∃ b, pathValue ends w fin r b ≠ 0 := by
      by_contra hno
      push Not at hno
      exact hback (ENNReal.tsum_eq_zero.mpr hno)
    have hcons : pathValue ends w fin q ([] ++ e :: b) = w e * pathValue ends w fin r b := by
      rw [pathValue_append_cons he, walk_nil, if_pos rfl, pathWeight_nil, one_mul]
    have harc : walk ends q₀ (a ++ [e]) = some r := by
      rw [walk_append, hwalk, Option.bind_some, walk_cons_of_ends he, walk_nil]
    have hle := @pathWeight_mul_backward_le Q E _ ends w fin _ _ _ harc
    rw [pathWeight_append, pathWeight_cons, pathWeight_nil, mul_one, mul_assoc] at hle
    rw [mul_assoc]
    apply ENNReal.mul_ne_top
    · exact forward_ne_top (hcons ▸ mul_ne_zero hw hb) hsum
    · intro htop
      rw [htop, ENNReal.mul_top ha] at hle
      exact hsum (top_le_iff.mp hle)
  · exact absurd rfl ha

end ForwardBackward

end StochasticEdit.Wfst
