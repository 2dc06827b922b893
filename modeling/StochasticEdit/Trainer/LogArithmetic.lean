import Mathlib.Analysis.SpecialFunctions.Log.ENNRealLogExp
import Mathlib.Data.EReal.Operations

/-! Numbers of the trainer. The doubles that hold logarithms are extended reals, with
`-DBL_MAX` read as the logarithm of 0. A weight of the log semiring with value `v`
is kept as `e^(-v)`, so that `Times` is the product, `One` is 1 and `Zero` is 0. -/

namespace StochasticEdit.Trainer

open scoped ENNReal

/-- `-DBL_MAX`. -/
noncomputable def negDblMax : EReal := ⊥

/-- `logadd`, with its special value 1.0 and its cutoff. -/
noncomputable def logadd (lna lnb : EReal) : EReal :=
  if lna = 1 then lnb
  else if lnb = 1 then lna
  else
    let diff := lna - lnb
    if diff < 500 then ENNReal.log (EReal.exp diff + 1) + lnb else lna

/-- `log(e^a + e^b)`, which `logadd` is documented to compute. -/
noncomputable def logsum (a b : EReal) : EReal := ENNReal.log (EReal.exp a + EReal.exp b)

/-- A weight of the log semiring. -/
abbrev LogWeight := ℝ≥0∞

/-- `LogWeight(v)`. -/
noncomputable def ofValue (v : EReal) : LogWeight := EReal.exp (-v)

/-- `w.Value()`. -/
noncomputable def value (w : LogWeight) : EReal := -ENNReal.log w

/-- `ExpectationWeight<LogWeight, LogWeight>`. -/
structure FeatureWeight where
  value1 : LogWeight
  value2 : LogWeight

instance : One FeatureWeight := ⟨⟨1, 0⟩⟩

noncomputable instance : Mul FeatureWeight :=
  ⟨fun a b => ⟨a.value1 * b.value1, a.value1 * b.value2 + a.value2 * b.value1⟩⟩

@[simp] theorem FeatureWeight.one_value1 : (1 : FeatureWeight).value1 = 1 := rfl
@[simp] theorem FeatureWeight.one_value2 : (1 : FeatureWeight).value2 = 0 := rfl

@[simp] theorem FeatureWeight.mul_value1 (a b : FeatureWeight) :
    (a * b).value1 = a.value1 * b.value1 := rfl

@[simp] theorem FeatureWeight.mul_value2 (a b : FeatureWeight) :
    (a * b).value2 = a.value1 * b.value2 + a.value2 * b.value1 := rfl

@[simp] theorem value_ofValue (v : EReal) : value (ofValue v) = v := by
  rw [value, ofValue, EReal.log_exp, neg_neg]

@[simp] theorem ofValue_value (w : LogWeight) : ofValue (value w) = w := by
  rw [value, ofValue, neg_neg, ENNReal.exp_log]

@[simp] theorem exp_neg_value (w : LogWeight) : EReal.exp (-value w) = w := ofValue_value w

@[simp] theorem exp_logsum (a b : EReal) : EReal.exp (logsum a b) = EReal.exp a + EReal.exp b :=
  ENNReal.exp_log _

/-- Away from the special value and below the cutoff `logadd` is exact. -/
theorem logadd_eq_logsum {a : EReal} {b : ℝ} (ha : a ≠ 1) (hb : b ≠ 1) (hcut : a - b < 500) :
    logadd a b = logsum a b := by
  have hb' : (b : EReal) ≠ 1 := fun h => hb (by exact_mod_cast h)
  have hexp : EReal.exp (a - b) * EReal.exp b = EReal.exp a := by
    rw [← EReal.exp_add, sub_eq_add_neg, add_assoc, ← EReal.coe_neg, ← EReal.coe_add,
      neg_add_cancel, EReal.coe_zero, add_zero]
  rw [logadd, if_neg ha, if_neg hb', if_pos hcut, logsum, ← hexp]
  rw [← EReal.log_exp (b : EReal), ← ENNReal.log_mul_add, EReal.log_exp, add_mul, one_mul]

/-- The special value loses one of the two terms. -/
theorem exp_logadd_le (a : EReal) (b : ℝ) (hcut : a - b < 500) :
    EReal.exp (logadd a b) ≤ EReal.exp a + EReal.exp b := by
  by_cases ha : a = 1
  · rw [logadd, if_pos ha]
    exact le_add_self
  by_cases hb : (b : EReal) = 1
  · rw [logadd, if_neg ha, if_pos hb]
    exact le_self_add
  · have hb' : b ≠ 1 := fun h => hb (by exact_mod_cast h)
    rw [logadd_eq_logsum ha hb' hcut, exp_logsum]

/-- Adding up a list of logarithms. -/
theorem exp_foldl_logsum (l : List EReal) (a : EReal) :
    EReal.exp (l.foldl logsum a) = EReal.exp a + (l.map EReal.exp).sum := by
  induction l generalizing a with
  | nil => simp
  | cons σ l ih => rw [List.foldl_cons, ih, exp_logsum, List.map_cons, List.sum_cons, add_assoc]

end StochasticEdit.Trainer
