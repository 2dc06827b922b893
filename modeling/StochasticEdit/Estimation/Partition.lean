import Mathlib.Analysis.SpecialFunctions.Log.Deriv
import Mathlib.Analysis.SpecialFunctions.ExpDeriv
import Mathlib.Algebra.BigOperators.Field
import Mathlib.Topology.Algebra.Module.ModuleTopology
import Mathlib.Tactic.LinearCombination

/-! Log-partition functions of finite families. An outcome `p` has a coefficient `κ p`
and an energy `W p`; its posterior is its share of the partition sum. The negative
logarithm of the partition sum has the posterior mean of the energies' derivatives
as its derivative, and it is majorised by the posterior mean of the energies. -/

namespace StochasticEdit.Estimation

open Real

variable {ι : Type*} (P : Finset ι) (κ : ι → ℝ)

/-- The partition sum. -/
noncomputable def partition (W : ι → ℝ) : ℝ := ∑ p ∈ P, κ p * exp (-W p)

noncomputable def posterior (W : ι → ℝ) (p : ι) : ℝ := κ p * exp (-W p) / partition P κ W

/-- The negative log-partition. -/
noncomputable def loss (W : ι → ℝ) : ℝ := -log (partition P κ W)

variable {P κ}

theorem partition_pos (hκ : ∀ p ∈ P, 0 ≤ κ p) (hpos : ∃ p ∈ P, 0 < κ p) (W : ι → ℝ) :
    0 < partition P κ W := by
  obtain ⟨p, hp, hpp⟩ := hpos
  apply Finset.sum_pos'
  · intro q hq
    exact mul_nonneg (hκ q hq) (exp_pos _).le
  · exact ⟨p, hp, mul_pos hpp (exp_pos _)⟩

theorem posterior_nonneg (hκ : ∀ p ∈ P, 0 ≤ κ p) (W : ι → ℝ) {p : ι} (hp : p ∈ P) :
    0 ≤ posterior P κ W p := by
  apply div_nonneg (mul_nonneg (hκ p hp) (exp_pos _).le)
  exact Finset.sum_nonneg fun q hq => mul_nonneg (hκ q hq) (exp_pos _).le

theorem sum_posterior {W : ι → ℝ} (h : 0 < partition P κ W) : ∑ p ∈ P, posterior P κ W p = 1 := by
  simp only [posterior]
  rw [← Finset.sum_div]
  exact div_self h.ne'

/-- Fisher's identity: the derivative of the loss is the posterior mean. -/
theorem hasDerivAt_loss {W : ℝ → ι → ℝ} {W' : ι → ℝ} {s : ℝ} (h : 0 < partition P κ (W s))
    (hW : ∀ p ∈ P, HasDerivAt (fun x => W x p) (W' p) s) :
    HasDerivAt (fun x => loss P κ (W x)) (∑ p ∈ P, posterior P κ (W s) p * W' p) s := by
  have hterm : ∀ p ∈ P, HasDerivAt (fun x => κ p * exp (-W x p)) (κ p * (exp (-W s p) * -W' p)) s :=
    fun p hp => ((hW p hp).neg.exp).const_mul (κ p)
  have hsum : HasDerivAt (fun x => partition P κ (W x))
      (∑ p ∈ P, κ p * (exp (-W s p) * -W' p)) s := by
    have := HasDerivAt.fun_sum hterm
    exact this
  refine (hsum.log h.ne').neg.congr_deriv ?_
  simp only [posterior]
  rw [neg_div', ← Finset.sum_neg_distrib, Finset.sum_div]
  refine Finset.sum_congr rfl fun p _ => ?_
  ring

/-! ### The majorisation -/

/-- How much more likely an outcome is under `W` than under `W₀`. -/
noncomputable def ratio (P : Finset ι) (κ : ι → ℝ) (W W₀ : ι → ℝ) (p : ι) : ℝ :=
  exp (W₀ p - W p) * (partition P κ W₀ / partition P κ W)

theorem ratio_pos {W W₀ : ι → ℝ} (h : 0 < partition P κ W) (h₀ : 0 < partition P κ W₀) (p : ι) :
    0 < ratio P κ W W₀ p := mul_pos (exp_pos _) (div_pos h₀ h)

theorem posterior_mul_ratio {W W₀ : ι → ℝ} (h₀ : 0 < partition P κ W₀) (p : ι) :
    posterior P κ W₀ p * ratio P κ W W₀ p = posterior P κ W p := by
  have hexp : exp (-W p) = exp (-W₀ p) * exp (W₀ p - W p) := by
    rw [← exp_add]
    ring_nf
  rw [posterior, posterior, ratio, hexp]
  have hne := h₀.ne'
  field_simp

theorem log_ratio {W W₀ : ι → ℝ} (h : 0 < partition P κ W) (h₀ : 0 < partition P κ W₀) (p : ι) :
    log (ratio P κ W W₀ p) = W₀ p - W p + (loss P κ W - loss P κ W₀) := by
  rw [ratio, log_mul (exp_pos _).ne' (div_pos h₀ h).ne', log_exp, log_div h₀.ne' h.ne', loss, loss]
  ring

/-- The gap of the majorisation is a sum of terms that are nowhere negative. -/
theorem majorisation_gap {W W₀ : ι → ℝ} (h : 0 < partition P κ W) (h₀ : 0 < partition P κ W₀) :
    (∑ p ∈ P, posterior P κ W₀ p * (W p - W₀ p)) - (loss P κ W - loss P κ W₀) =
      ∑ p ∈ P, posterior P κ W₀ p * (ratio P κ W W₀ p - 1 - log (ratio P κ W W₀ p)) := by
  have hsum : ∑ p ∈ P, posterior P κ W₀ p * (ratio P κ W W₀ p - 1 - log (ratio P κ W W₀ p)) =
      ∑ p ∈ P, posterior P κ W p - ∑ p ∈ P, posterior P κ W₀ p +
        (∑ p ∈ P, posterior P κ W₀ p * (W p - W₀ p) -
          (∑ p ∈ P, posterior P κ W₀ p) * (loss P κ W - loss P κ W₀)) := by
    rw [Finset.sum_mul, ← Finset.sum_sub_distrib, ← Finset.sum_sub_distrib,
      ← Finset.sum_add_distrib]
    refine Finset.sum_congr rfl fun p _ => ?_
    have hratio := @posterior_mul_ratio _ P κ W W₀ h₀ p
    rw [log_ratio h h₀]
    linear_combination hratio
  rw [hsum, sum_posterior h, sum_posterior h₀]
  ring

theorem gap_term_nonneg (hκ : ∀ p ∈ P, 0 ≤ κ p) {W W₀ : ι → ℝ} (h : 0 < partition P κ W)
    (h₀ : 0 < partition P κ W₀) {p : ι} (hp : p ∈ P) :
    0 ≤ posterior P κ W₀ p * (ratio P κ W W₀ p - 1 - log (ratio P κ W W₀ p)) := by
  have hlog := log_le_sub_one_of_pos (ratio_pos h h₀ p)
  exact mul_nonneg (posterior_nonneg hκ W₀ hp) (by linarith)

/-- The change of the loss is at most the posterior mean of the change of energy. -/
theorem loss_sub_le (hκ : ∀ p ∈ P, 0 ≤ κ p) (hpos : ∃ p ∈ P, 0 < κ p) (W W₀ : ι → ℝ) :
    loss P κ W - loss P κ W₀ ≤ ∑ p ∈ P, posterior P κ W₀ p * (W p - W₀ p) := by
  have h := partition_pos hκ hpos W
  have h₀ := partition_pos hκ hpos W₀
  have hgap := majorisation_gap h h₀
  have hnonneg := Finset.sum_nonneg fun p hp => gap_term_nonneg hκ h h₀ hp
  linarith

/-- The bound is attained only if the posterior does not move. -/
theorem loss_sub_eq_iff (hκ : ∀ p ∈ P, 0 ≤ κ p) (hpos : ∃ p ∈ P, 0 < κ p) (W W₀ : ι → ℝ) :
    loss P κ W - loss P κ W₀ = ∑ p ∈ P, posterior P κ W₀ p * (W p - W₀ p) ↔
      ∀ p ∈ P, posterior P κ W p = posterior P κ W₀ p := by
  have h := partition_pos hκ hpos W
  have h₀ := partition_pos hκ hpos W₀
  have hgap := majorisation_gap h h₀
  have hzero : loss P κ W - loss P κ W₀ = ∑ p ∈ P, posterior P κ W₀ p * (W p - W₀ p) ↔
      ∀ p ∈ P, posterior P κ W₀ p * (ratio P κ W W₀ p - 1 - log (ratio P κ W W₀ p)) = 0 := by
    rw [← Finset.sum_eq_zero_iff_of_nonneg fun p hp => gap_term_nonneg hκ h h₀ hp, ← hgap]
    constructor
    · intro heq
      linarith
    · intro heq
      linarith
  rw [hzero]
  refine forall₂_congr fun p _ => ?_
  rw [← @posterior_mul_ratio _ P κ W W₀ h₀ p, mul_eq_zero]
  constructor
  · rintro (hp | hr)
    · rw [hp, zero_mul]
    · have hone : ratio P κ W W₀ p = 1 := by
        by_contra hne
        have := log_lt_sub_one_of_pos (ratio_pos h h₀ p) hne
        linarith
      rw [hone, mul_one]
  · intro heq
    by_cases hp : posterior P κ W₀ p = 0
    · exact .inl hp
    · have hone : ratio P κ W W₀ p = 1 := mul_left_cancel₀ hp (heq.trans (mul_one _).symm)
      exact .inr (by rw [hone, log_one]; ring)

/-- The posterior does not move if and only if no two outcomes change their ratio. -/
theorem posterior_eq_iff_ratio {W W₀ : ι → ℝ} (h : 0 < partition P κ W)
    (h₀ : 0 < partition P κ W₀) :
    (∀ p ∈ P, posterior P κ W p = posterior P κ W₀ p) ↔ ∀ p ∈ P, ∀ q ∈ P,
      κ p * exp (-W p) * (κ q * exp (-W₀ q)) = κ p * exp (-W₀ p) * (κ q * exp (-W q)) := by
  have hterm {V : ι → ℝ} (hV : 0 < partition P κ V) (p : ι) :
      κ p * exp (-V p) = posterior P κ V p * partition P κ V := (div_mul_cancel₀ _ hV.ne').symm
  constructor
  · intro heq p hp q hq
    rw [hterm h p, hterm h₀ q, hterm h₀ p, hterm h q, heq p hp, heq q hq]
    ring
  · intro hcross p hp
    rw [posterior, posterior, div_eq_div_iff h.ne' h₀.ne', partition, partition, Finset.mul_sum,
      Finset.mul_sum]
    exact Finset.sum_congr rfl fun q hq => hcross p hp q hq

end StochasticEdit.Estimation
