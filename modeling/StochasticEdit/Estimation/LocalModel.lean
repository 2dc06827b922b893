import StochasticEdit.Estimation.Partition
import Mathlib.Analysis.Calculus.MeanValue

/-! Locally normalised log-linear models with latent paths. Arcs compete in groups;
the weight of an arc is its score normalised over its group. A lattice is a finite
family of paths, each with a coefficient and with the number of times it uses every
arc; its loss is the negative log of its total probability. -/

namespace StochasticEdit.Estimation

open Real

section Softmax
variable {α γ : Type*} [DecidableEq γ] (A : Finset α) (g : α → γ)

/-- The group of an arc. -/
def rivals (a : α) : Finset α := A.filter fun b => g b = g a

/-- The normalised weight of an arc with score `s a`. -/
noncomputable def localWeight (s : α → ℝ) (a : α) : ℝ := s a - loss (rivals A g a) 1 s

noncomputable def localProb (s : α → ℝ) (a : α) : ℝ := posterior (rivals A g a) 1 s a

variable {A g}

theorem rivals_congr {a b : α} (h : g b = g a) : rivals A g b = rivals A g a := by
  rw [rivals, rivals, h]

theorem mem_rivals {a b : α} : b ∈ rivals A g a ↔ b ∈ A ∧ g b = g a := Finset.mem_filter

theorem partition_rivals_pos (s : α → ℝ) {a : α} (ha : a ∈ A) : 0 < partition (rivals A g a) 1 s :=
  partition_pos (fun _ _ => zero_le_one) ⟨a, mem_rivals.mpr ⟨ha, rfl⟩, zero_lt_one⟩ s

theorem localProb_eq_exp (s : α → ℝ) {a : α} (ha : a ∈ A) :
    localProb A g s a = exp (-localWeight A g s a) := by
  have hpos := partition_rivals_pos (g := g) s ha
  have hsplit : -localWeight A g s a = -s a + -log (partition (rivals A g a) 1 s) := by
    rw [localWeight, loss]
    ring
  rw [hsplit, exp_add, exp_neg (log _), exp_log hpos, localProb, posterior, Pi.one_apply, one_mul]
  rfl

theorem sum_localProb (s : α → ℝ) {a : α} (ha : a ∈ A) :
    ∑ b ∈ rivals A g a, localProb A g s b = 1 := by
  rw [← sum_posterior (partition_rivals_pos (g := g) s ha)]
  refine Finset.sum_congr rfl fun b hb => ?_
  rw [localProb, rivals_congr (mem_rivals.mp hb).2]

/-- What is the same on a whole group is its mean there. -/
theorem sum_localProb_mul_of_const (s : α → ℝ) {n : α → ℝ} {a : α} (ha : a ∈ A)
    (hn : ∀ b ∈ rivals A g a, n b = n a) : ∑ b ∈ rivals A g a, localProb A g s b * n b = n a := by
  calc ∑ b ∈ rivals A g a, localProb A g s b * n b
      = ∑ b ∈ rivals A g a, localProb A g s b * n a :=
        Finset.sum_congr rfl fun b hb => by rw [hn b hb]
    _ = n a := by rw [← Finset.sum_mul, sum_localProb s ha, one_mul]

theorem hasDerivAt_localWeight {s : ℝ → α → ℝ} {s' : α → ℝ} {x : ℝ} {a : α} (ha : a ∈ A)
    (hs : ∀ b ∈ A, HasDerivAt (fun y => s y b) (s' b) x) :
    HasDerivAt (fun y => localWeight A g (s y) a)
      (s' a - ∑ b ∈ rivals A g a, localProb A g (s x) b * s' b) x := by
  have hloss : HasDerivAt (fun y => loss (rivals A g a) 1 (s y))
      (∑ b ∈ rivals A g a, posterior (rivals A g a) 1 (s x) b * s' b) x :=
    hasDerivAt_loss (partition_rivals_pos (s x) ha) fun b hb => hs b (mem_rivals.mp hb).1
  refine ((hs a ha).sub hloss).congr_deriv ?_
  congr 1
  refine Finset.sum_congr rfl fun b hb => ?_
  rw [localProb, rivals_congr (mem_rivals.mp hb).2]

/-- Counts against normalised features, regrouped by the arc that carries the feature. -/
theorem sum_counts_mul (c p n : α → ℝ) :
    ∑ a ∈ A, c a * (n a - ∑ b ∈ rivals A g a, p b * n b) =
      ∑ a ∈ A, n a * (c a - (∑ b ∈ rivals A g a, c b) * p a) := by
  have hswap : ∑ a ∈ A, c a * ∑ b ∈ rivals A g a, p b * n b =
      ∑ a ∈ A, n a * ((∑ b ∈ rivals A g a, c b) * p a) := by
    simp only [rivals, Finset.sum_filter, Finset.mul_sum, Finset.sum_mul]
    rw [Finset.sum_comm]
    refine Finset.sum_congr rfl fun a _ => Finset.sum_congr rfl fun b _ => ?_
    by_cases h : g a = g b
    · rw [if_pos h, if_pos h.symm]
      ring
    · rw [if_neg h, if_neg fun h' => h h'.symm]
      ring
  simp only [mul_sub, Finset.sum_sub_distrib]
  rw [hswap]
  congr 1
  exact Finset.sum_congr rfl fun a _ => mul_comm _ _

end Softmax

/-! ### Lattices -/

/-- The paths of a lattice, with the coefficient of each and the arcs it uses. -/
structure Lattice (ι α : Type*) where
  paths : Finset ι
  coef : ι → ℝ
  uses : ι → α → ℕ
  coef_nonneg : ∀ p ∈ paths, 0 ≤ coef p
  exists_pos : ∃ p ∈ paths, 0 < coef p

variable {ι α : Type*} (A : Finset α)

/-- The weight of a path. -/
def Lattice.energy (L : Lattice ι α) (w : α → ℝ) (p : ι) : ℝ := ∑ a ∈ A, L.uses p a * w a

noncomputable def Lattice.loss (L : Lattice ι α) (w : α → ℝ) : ℝ :=
  Estimation.loss L.paths L.coef (L.energy A w)

noncomputable def Lattice.posterior (L : Lattice ι α) (w : α → ℝ) (p : ι) : ℝ :=
  Estimation.posterior L.paths L.coef (L.energy A w) p

/-- The expected number of uses of an arc. -/
noncomputable def Lattice.counts (L : Lattice ι α) (w : α → ℝ) (a : α) : ℝ :=
  ∑ p ∈ L.paths, L.posterior A w p * L.uses p a

variable {A}

theorem Lattice.partition_pos (L : Lattice ι α) (w : α → ℝ) :
    0 < partition L.paths L.coef (L.energy A w) :=
  Estimation.partition_pos L.coef_nonneg L.exists_pos _

/-- The posterior mean of a weight of paths, by arcs. -/
theorem Lattice.sum_posterior_energy (L : Lattice ι α) (w v : α → ℝ) :
    ∑ p ∈ L.paths, L.posterior A w p * L.energy A v p = ∑ a ∈ A, L.counts A w a * v a := by
  simp only [Lattice.energy, Lattice.counts, Finset.mul_sum, Finset.sum_mul]
  rw [Finset.sum_comm]
  refine Finset.sum_congr rfl fun a _ => Finset.sum_congr rfl fun p _ => ?_
  ring

theorem Lattice.hasDerivAt_loss (L : Lattice ι α) {w : ℝ → α → ℝ} {w' : α → ℝ} {x : ℝ}
    (hw : ∀ a ∈ A, HasDerivAt (fun y => w y a) (w' a) x) :
    HasDerivAt (fun y => L.loss A (w y)) (∑ a ∈ A, L.counts A (w x) a * w' a) x := by
  rw [← L.sum_posterior_energy]
  have henergy : ∀ p ∈ L.paths, HasDerivAt (fun y => L.energy A (w y) p) (L.energy A w' p) x :=
    fun p _ => HasDerivAt.fun_sum fun a ha => (hw a ha).const_mul _
  exact Estimation.hasDerivAt_loss (L.partition_pos (w x)) henergy

theorem Lattice.energy_sub (L : Lattice ι α) (w w₀ : α → ℝ) (p : ι) :
    L.energy A w p - L.energy A w₀ p = L.energy A (fun a => w a - w₀ a) p := by
  simp only [Lattice.energy]
  rw [← Finset.sum_sub_distrib]
  exact Finset.sum_congr rfl fun a _ => by ring

theorem Lattice.loss_sub_le (L : Lattice ι α) (w w₀ : α → ℝ) :
    L.loss A w - L.loss A w₀ ≤ ∑ a ∈ A, L.counts A w₀ a * (w a - w₀ a) := by
  rw [← L.sum_posterior_energy]
  refine (Estimation.loss_sub_le L.coef_nonneg L.exists_pos _ _).trans_eq ?_
  exact Finset.sum_congr rfl fun p _ => by rw [L.energy_sub]; rfl

theorem Lattice.loss_sub_eq_iff (L : Lattice ι α) (w w₀ : α → ℝ) :
    L.loss A w - L.loss A w₀ = ∑ a ∈ A, L.counts A w₀ a * (w a - w₀ a) ↔
      ∀ p ∈ L.paths, L.posterior A w p = L.posterior A w₀ p := by
  rw [← L.sum_posterior_energy]
  simp only [← L.energy_sub]
  exact Estimation.loss_sub_eq_iff L.coef_nonneg L.exists_pos _ _

/-! ### Several lattices -/

section Data
variable (A) (D : List (Lattice ι α))

noncomputable def totalLoss (w : α → ℝ) : ℝ := (D.map fun L => L.loss A w).sum

noncomputable def totalCounts (w : α → ℝ) (a : α) : ℝ := (D.map fun L => L.counts A w a).sum

variable {A D}

theorem sum_totalCounts (w v : α → ℝ) : ∑ a ∈ A, totalCounts A D w a * v a =
    (D.map fun L => ∑ a ∈ A, L.counts A w a * v a).sum := by
  induction D with
  | nil => simp [totalCounts]
  | cons L D ih =>
    rw [List.map_cons, List.sum_cons, ← ih, ← Finset.sum_add_distrib]
    refine Finset.sum_congr rfl fun a _ => ?_
    rw [totalCounts, List.map_cons, List.sum_cons, add_mul]
    rfl

theorem hasDerivAt_totalLoss {w : ℝ → α → ℝ} {w' : α → ℝ} {x : ℝ}
    (hw : ∀ a ∈ A, HasDerivAt (fun y => w y a) (w' a) x) :
    HasDerivAt (fun y => totalLoss A D (w y)) (∑ a ∈ A, totalCounts A D (w x) a * w' a) x := by
  rw [sum_totalCounts]
  induction D with
  | nil => exact hasDerivAt_const x 0
  | cons L D ih => exact (L.hasDerivAt_loss hw).add ih

/-- The majorisation of the total loss by the counts at `w₀`. -/
theorem totalLoss_sub_le (w w₀ : α → ℝ) :
    totalLoss A D w - totalLoss A D w₀ ≤ ∑ a ∈ A, totalCounts A D w₀ a * (w a - w₀ a) := by
  rw [sum_totalCounts]
  induction D with
  | nil => simp [totalLoss]
  | cons L D ih =>
    have hL := L.loss_sub_le (A := A) w w₀
    simp only [totalLoss, List.map_cons, List.sum_cons] at ih ⊢
    linarith

/-- It is attained only if no posterior moves. -/
theorem totalLoss_sub_eq_iff (w w₀ : α → ℝ) :
    totalLoss A D w - totalLoss A D w₀ = ∑ a ∈ A, totalCounts A D w₀ a * (w a - w₀ a) ↔
      ∀ L ∈ D, ∀ p ∈ L.paths, L.posterior A w p = L.posterior A w₀ p := by
  simp only [← Lattice.loss_sub_eq_iff]
  rw [sum_totalCounts]
  induction D with
  | nil => simp [totalLoss]
  | cons L D ih =>
    have hL := L.loss_sub_le (A := A) w w₀
    have hD := totalLoss_sub_le (A := A) (D := D) w w₀
    rw [sum_totalCounts] at hD
    simp only [List.mem_cons, forall_eq_or_imp, ← ih]
    simp only [totalLoss, List.map_cons, List.sum_cons] at hD ⊢
    constructor
    · intro h
      exact ⟨by linarith, by linarith⟩
    · rintro ⟨h₁, h₂⟩
      linarith

/-- If along a curve the loss always has the slope that the counts at its start
predict, then no posterior moves. -/
theorem posterior_eq_of_slope {w w' : ℝ → α → ℝ}
    (hw : ∀ x, ∀ a ∈ A, HasDerivAt (fun y => w y a) (w' x a) x)
    (h : ∀ x, ∑ a ∈ A, totalCounts A D (w x) a * w' x a = ∑ a ∈ A, totalCounts A D (w 0) a * w' x a)
    (x : ℝ) : ∀ L ∈ D, ∀ p ∈ L.paths, L.posterior A (w x) p = L.posterior A (w 0) p := by
  rw [← totalLoss_sub_eq_iff]
  let f : ℝ → ℝ := fun y => totalLoss A D (w y) - ∑ a ∈ A, totalCounts A D (w 0) a * w y a
  have hf : ∀ y, HasDerivAt f 0 y := by
    intro y
    have hlin : HasDerivAt (fun z => ∑ a ∈ A, totalCounts A D (w 0) a * w z a)
        (∑ a ∈ A, totalCounts A D (w 0) a * w' y a) y :=
      HasDerivAt.fun_sum fun a ha => (hw y a ha).const_mul _
    refine ((hasDerivAt_totalLoss (hw y)).sub hlin).congr_deriv ?_
    rw [h y, sub_self]
  have hconst : f x = f 0 :=
    is_const_of_deriv_eq_zero (fun y => (hf y).differentiableAt) (fun y => (hf y).deriv) x 0
  simp only [f] at hconst
  simp only [mul_sub, Finset.sum_sub_distrib]
  linarith

end Data

end StochasticEdit.Estimation
