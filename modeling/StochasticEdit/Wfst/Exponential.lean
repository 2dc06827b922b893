import Mathlib.NumberTheory.Transcendental.Lindemann.AnalyticalPart
import Mathlib.RingTheory.Algebraic.Integral
import Mathlib.RingTheory.Localization.Integral
import Mathlib.RingTheory.SimpleRing.Principal
import Mathlib.Topology.Algebra.Order.Floor

/-! Powers of `e` with rational exponents. No rational polynomial with a constant term has a
power of `e` as its value at `1/e`, except the constant one. -/

namespace StochasticEdit.Wfst

open Polynomial Filter
open scoped Nat NNRat

/-! ### The number e is transcendental -/

/-- The polynomial with the roots 1 to `m`. -/
noncomputable def rootsTo (m : ℕ) : ℤ[X] := ∏ j ∈ Finset.range m, (X - C ((j + 1 : ℕ) : ℤ))

theorem eval_rootsTo_zero (m : ℕ) : (rootsTo m).eval 0 ≠ 0 := by
  rw [rootsTo, eval_prod, Finset.prod_ne_zero_iff]
  intro j _
  rw [eval_sub, eval_X, eval_C, zero_sub, neg_ne_zero, Nat.cast_ne_zero]
  exact j.succ_ne_zero

theorem mem_aroots_rootsTo {m j : ℕ} (hj : j ∈ Finset.range m) :
    ((j + 1 : ℕ) : ℂ) ∈ (rootsTo m).aroots ℂ := by
  refine mem_aroots.mpr ⟨fun h => eval_rootsTo_zero m (by rw [h, eval_zero]), ?_⟩
  rw [rootsTo, map_prod, Finset.prod_eq_zero_iff]
  exact ⟨j, hj, by simp⟩

/-- A factorial outgrows the powers of a number. -/
theorem eventually_pow_div_factorial_lt (A c : ℝ) :
    ∀ᶠ p : ℕ in atTop, A * (c ^ p / (p - 1)!) < 1 := by
  have hlim : Tendsto (fun n : ℕ => A * (c * (c ^ n / n !))) atTop (nhds 0) := by
    have hzero := ((FloorSemiring.tendsto_pow_div_factorial_atTop c).const_mul c).const_mul A
    rwa [mul_zero, mul_zero] at hzero
  have hlate := (tendsto_sub_atTop_nat 1).eventually (hlim.eventually_lt_const one_pos)
  filter_upwards [hlate, eventually_ge_atTop 1] with p hp hpos
  obtain ⟨n, rfl⟩ := Nat.exists_eq_add_of_le' hpos
  rw [Nat.add_sub_cancel] at hp ⊢
  rwa [pow_succ', mul_div_assoc]

/-- No integer polynomial with a constant term is zero at `e`. -/
theorem aeval_exp_one_ne_zero {q : ℤ[X]} (h0 : q.coeff 0 ≠ 0) : aeval (Complex.exp 1) q ≠ 0 := by
  intro hq
  set m := q.natDegree
  obtain ⟨c, happrox⟩ := LindemannWeierstrass.exp_polynomial_approx (rootsTo m)
    (eval_rootsTo_zero m)
  set A : ℝ := ∑ j ∈ Finset.range m, ‖(q.coeff (j + 1) : ℂ)‖
  obtain ⟨N, hN⟩ := eventually_atTop.mp (eventually_pow_div_factorial_lt A c)
  obtain ⟨p, hle, hp⟩ := Nat.exists_infinite_primes
    (max N (max ((rootsTo m).eval 0).natAbs (q.coeff 0).natAbs + 1))
  have hlarge : ((rootsTo m).eval 0).natAbs < p ∧ (q.coeff 0).natAbs < p ∧ N ≤ p := by omega
  obtain ⟨n, hn, g, -, hbound⟩ := happrox p hlarge.1 hp
  -- an integer that the prime does not divide, and that is too small for it
  set k : ℤ := n * q.coeff 0 + p * ∑ j ∈ Finset.range m, q.coeff (j + 1) * g.eval ((j + 1 : ℕ) : ℤ)
  have hk : k ≠ 0 := by
    intro hzero
    have hdvd : (p : ℤ) ∣ n * q.coeff 0 :=
      (dvd_add_left (dvd_mul_right _ _)).mp (hzero ▸ dvd_zero _)
    rcases (Nat.prime_iff_prime_int.mp hp).dvd_or_dvd hdvd with hdvd | hdvd
    · exact hn hdvd
    · exact absurd (Nat.le_of_dvd (Int.natAbs_pos.mpr h0) (Int.natCast_dvd.mp hdvd))
        hlarge.2.1.not_ge
  have hsum : (k : ℂ) = -∑ j ∈ Finset.range m, (q.coeff (j + 1) : ℂ) *
      (n • Complex.exp (j + 1 : ℕ) - p • aeval ((j + 1 : ℕ) : ℂ) g) := by
    have hroot : ∑ j ∈ Finset.range m, (q.coeff (j + 1) : ℂ) * Complex.exp (j + 1 : ℕ) =
        -q.coeff 0 := by
      rw [aeval_eq_sum_range, Finset.sum_range_succ', pow_zero] at hq
      simp only [← Complex.exp_nat_mul, mul_one, zsmul_eq_mul] at hq
      exact eq_neg_of_add_eq_zero_left hq
    have heval (j : ℕ) : aeval ((j + 1 : ℕ) : ℂ) g = ((g.eval ((j + 1 : ℕ) : ℤ) : ℤ) : ℂ) := by
      have hint := aeval_algebraMap_apply ℂ ((j + 1 : ℕ) : ℤ) g
      rwa [algebraMap_int_eq, eq_intCast, eq_intCast, Int.cast_natCast, coe_aeval_eq_eval] at hint
    simp only [mul_sub, Finset.sum_sub_distrib, heval, nsmul_eq_mul, zsmul_eq_mul,
      mul_left_comm _ (n : ℂ), mul_left_comm _ (p : ℂ), ← Finset.mul_sum, hroot, k]
    push_cast
    ring
  have hsmall : ‖(k : ℂ)‖ < 1 := by
    calc ‖(k : ℂ)‖ ≤ ∑ j ∈ Finset.range m, ‖(q.coeff (j + 1) : ℂ) *
            (n • Complex.exp (j + 1 : ℕ) - p • aeval ((j + 1 : ℕ) : ℂ) g)‖ := by
          rw [hsum, norm_neg]
          exact norm_sum_le _ _
      _ ≤ ∑ j ∈ Finset.range m, ‖(q.coeff (j + 1) : ℂ)‖ * (c ^ p / (p - 1)!) := by
          refine Finset.sum_le_sum fun j hj => ?_
          rw [norm_mul]
          exact mul_le_mul_of_nonneg_left (hbound (mem_aroots_rootsTo hj)) (norm_nonneg _)
      _ = A * (c ^ p / (p - 1)!) := (Finset.sum_mul ..).symm
      _ < 1 := hN p hlarge.2.2
  rw [Complex.norm_intCast, ← Int.cast_abs] at hsmall
  exact absurd (Int.one_le_abs hk) (by exact_mod_cast hsmall.not_ge)

theorem transcendental_exp_one : Transcendental ℚ (Real.exp 1) := by
  intro halg
  have hint : IsAlgebraic ℤ (Real.exp 1) := (IsFractionRing.isAlgebraic_iff ℤ ℚ ℝ).mpr halg
  obtain ⟨q, h0, hq⟩ :=
    hint.exists_nonzero_coeff_and_aeval_eq_zero
      (mem_nonZeroDivisors_of_ne_zero (Real.exp_ne_zero 1))
  refine aeval_exp_one_ne_zero h0 ?_
  have hcomplex := aeval_algebraMap_apply ℂ (Real.exp 1) q
  rwa [hq, map_zero, Complex.coe_algebraMap, Complex.ofReal_exp, Complex.ofReal_one] at hcomplex

/-- Nor is one of its roots algebraic. -/
theorem transcendental_exp_inv {b : ℕ} (hb : b ≠ 0) : Transcendental ℚ
    (Real.exp (-(1 / b : ℝ))) := by
  intro halg
  refine transcendental_exp_one ?_
  have hpow : Real.exp 1 = (Real.exp (-(1 / b : ℝ)) ^ b)⁻¹ := by
    rw [← Real.exp_nat_mul, ← Real.exp_neg]
    congr 1
    field_simp
  rw [hpow]
  exact (halg.pow b).inv

/-! ### Values at 1/e -/

/-- A polynomial with a constant term has no other power of `e` at `1/e` than one. -/
theorem eq_one_of_aeval_exp {Q : ℚ[X]} (h0 : Q.eval 0 ≠ 0) {x : ℚ≥0}
    (h : aeval (Real.exp (-1)) Q = Real.exp (-(x : ℝ))) : x = 0 ∧ Q = 1 := by
  have hden : (x.den : ℝ) ≠ 0 := Nat.cast_ne_zero.mpr x.den_ne_zero
  have hexpand : expand ℚ x.den Q = X ^ x.num := by
    refine sub_eq_zero.mp (transcendental_iff.mp (transcendental_exp_inv x.den_ne_zero) _ ?_)
    have hroot : Real.exp (-(1 / x.den : ℝ)) ^ x.den = Real.exp (-1) := by
      rw [← Real.exp_nat_mul]
      congr 1
      field_simp
    have hpow : Real.exp (-(1 / x.den : ℝ)) ^ x.num = Real.exp (-(x : ℝ)) := by
      rw [← Real.exp_nat_mul, NNRat.cast_def]
      congr 1
      field_simp
    rw [map_sub, expand_aeval, hroot, h, map_pow, aeval_X, hpow, sub_self]
  have hzero : x.num = 0 := by
    by_contra hne
    have heval := congrArg (eval 0) hexpand
    rw [expand_eval, zero_pow x.den_ne_zero, eval_pow, eval_X, zero_pow hne] at heval
    exact h0 heval
  refine ⟨by rw [← NNRat.num_div_den x, hzero, Nat.cast_zero, zero_div],
    expand_injective x.den_pos ?_⟩
  rw [hexpand, hzero, pow_zero, map_one]

end StochasticEdit.Wfst
