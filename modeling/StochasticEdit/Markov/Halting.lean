import Mathlib.Analysis.SpecificLimits.Basic
import Mathlib.Topology.Algebra.InfiniteSum.ENNReal
import Mathlib.Logic.Relation
import StochasticEdit.Wfst.PathSum

/-! Processes that run until they halt. A process moves by labelled steps, each with its
probability. Where the steps of every state sum to 1, what has halted and what is still
under way after `n` steps sum to 1 as well. On finitely many states the process halts
almost surely exactly if it can halt from every state that it can reach. -/

namespace StochasticEdit.Markov

open Wfst
open scoped ENNReal

/-- Steps with their probabilities, and the states in which the process halts; none of them
has a step. -/
structure Process (S A : Type*) where
  next : S → A → Option S
  prob : S → A → ℝ≥0∞
  halted : Set S
  stuck : ∀ s ∈ halted, ∀ a, next s a = none

namespace Process

variable {S A : Type*} (P : Process S A)

/-- The mean of a function over the steps of a state. -/
noncomputable def mean (f : S → ℝ≥0∞) (s : S) : ℝ≥0∞ :=
  tsum fun a => P.prob s a * (P.next s a).elim 0 f

/-- The probability of a path that ends in a halted state, 0 for other lists of steps. -/
noncomputable def haltWeight : List A → S → ℝ≥0∞
  | [], s => P.halted.indicator 1 s
  | a :: p, s => P.prob s a * (P.next s a).elim 0 (haltWeight p)

/-- The probability to halt at all. -/
noncomputable def halting (s : S) : ℝ≥0∞ := tsum fun p => P.haltWeight p s

/-- The probability to halt within `n` steps. -/
noncomputable def haltedWithin : ℕ → S → ℝ≥0∞
  | 0, s => P.halted.indicator 1 s
  | n + 1, s => P.halted.indicator 1 s + P.mean (haltedWithin n) s

/-- The probability to make `n` steps and not to have halted. -/
noncomputable def underway : ℕ → S → ℝ≥0∞
  | 0, s => P.haltedᶜ.indicator 1 s
  | n + 1, s => P.mean (underway n) s

/-- A step of positive probability. -/
def Moves (s t : S) : Prop := ∃ a, P.prob s a ≠ 0 ∧ P.next s a = some t

/-- The steps of the states of `I` stay in `I` and sum to 1. -/
structure Conserving (I : Set S) : Prop where
  closed : ∀ s ∈ I, ∀ t, P.Moves s t → t ∈ I
  total : ∀ s ∈ I, s ∉ P.halted → P.mean 1 s = 1

variable {P} {s t : S} {I : Set S}

/-! ### Means -/

theorem mean_mono {f g : S → ℝ≥0∞} (h : ∀ t, P.Moves s t → f t ≤ g t) :
    P.mean f s ≤ P.mean g s := by
  refine ENNReal.tsum_le_tsum fun a => ?_
  by_cases ha : P.prob s a = 0
  · simp [ha]
  · rcases ht : P.next s a with _ | t
    · rfl
    · exact mul_le_mul_right (h t ⟨a, ha, ht⟩) _

theorem mean_congr {f g : S → ℝ≥0∞} (h : ∀ t, P.Moves s t → f t = g t) : P.mean f s = P.mean g s :=
  le_antisymm (mean_mono fun t ht => (h t ht).le) (mean_mono fun t ht => (h t ht).ge)

theorem mean_add (f g : S → ℝ≥0∞) : P.mean (f + g) s = P.mean f s + P.mean g s := by
  rw [mean, mean, mean, ← ENNReal.tsum_add]
  refine tsum_congr fun a => ?_
  cases P.next s a with
  | none => simp
  | some t => exact mul_add _ _ _

theorem mean_mul (f : S → ℝ≥0∞) (c : ℝ≥0∞) : P.mean (fun t => f t * c) s = P.mean f s * c := by
  rw [mean, mean, ← ENNReal.tsum_mul_right]
  refine tsum_congr fun a => ?_
  cases P.next s a with
  | none => simp
  | some t => exact (mul_assoc _ _ _).symm

theorem mean_of_halted (h : s ∈ P.halted) (f : S → ℝ≥0∞) : P.mean f s = 0 := by
  refine ENNReal.tsum_eq_zero.mpr fun a => ?_
  rw [P.stuck s h a]
  exact mul_zero _

theorem not_moves_of_halted (h : s ∈ P.halted) : ¬ P.Moves s t := by
  rintro ⟨a, -, ha⟩
  rw [P.stuck s h a] at ha
  contradiction

/-! ### Halting within a number of steps -/

theorem haltedWithin_le_succ (n : ℕ) (s : S) : P.haltedWithin n s ≤ P.haltedWithin (n + 1) s := by
  induction n generalizing s with
  | zero => exact le_self_add
  | succ n ih => exact add_le_add le_rfl (mean_mono fun t _ => ih t)

theorem haltedWithin_mono (s : S) : Monotone fun n => P.haltedWithin n s :=
  monotone_nat_of_le_succ fun n => haltedWithin_le_succ n s

/-- Nothing is lost: a path halts or goes on. -/
theorem Conserving.haltedWithin_add_underway (h : P.Conserving I) (n : ℕ) (hs : s ∈ I) :
    P.haltedWithin n s + P.underway n s = 1 := by
  induction n generalizing s with
  | zero => exact congrFun (Set.indicator_self_add_compl P.halted 1) s
  | succ n ih =>
    rw [haltedWithin, underway, add_assoc, ← mean_add]
    by_cases hhalt : s ∈ P.halted
    · rw [mean_of_halted hhalt, add_zero, Set.indicator_of_mem hhalt]
      rfl
    · rw [Set.indicator_of_notMem hhalt, zero_add, ← h.total s hs hhalt]
      exact mean_congr fun t ht => ih (h.closed s hs t ht)

theorem haltedWithin_eq (n : ℕ) (s : S) :
    P.haltedWithin n s = tsum fun p => if p.length ≤ n then P.haltWeight p s else 0 := by
  induction n generalizing s with
  | zero =>
    rw [tsum_eq_single []]
    · rfl
    · intro p hp
      exact if_neg fun h => hp (List.length_eq_zero_iff.mp (Nat.le_zero.mp h))
  | succ n ih =>
    rw [haltedWithin, tsum_list, if_pos (show ([] : List A).length ≤ n + 1 from Nat.zero_le _)]
    refine congrArg (P.haltWeight [] s + ·) (tsum_congr fun a => ?_)
    cases ha : P.next s a with
    | none => simp [haltWeight, ha]
    | some t =>
      simp only [List.length_cons, Nat.add_le_add_iff_right, haltWeight, ha, Option.elim_some, ih,
        ← ENNReal.tsum_mul_left, mul_ite, mul_zero]

theorem haltWeight_le_haltedWithin (p : List A) (s : S) :
    P.haltWeight p s ≤ P.haltedWithin p.length s := by
  rw [haltedWithin_eq]
  refine le_trans (by rw [if_pos le_rfl]) (ENNReal.le_tsum p)

theorem haltedWithin_le_halting (n : ℕ) (s : S) : P.haltedWithin n s ≤ P.halting s := by
  rw [haltedWithin_eq]
  refine ENNReal.tsum_le_tsum fun p => ?_
  split_ifs
  · rfl
  · exact zero_le

theorem halting_eq (s : S) : P.halting s = P.halted.indicator 1 s + P.mean P.halting s := by
  rw [halting, tsum_list]
  refine congrArg (_ + ·) (tsum_congr fun a => ?_)
  simp only [haltWeight, ENNReal.tsum_mul_left]
  cases P.next s a with
  | none => simp
  | some t => rfl

/-- Finitely many paths halt within the length of the longest. -/
theorem Conserving.halting_le_one (h : P.Conserving I) (hs : s ∈ I) : P.halting s ≤ 1 := by
  rw [halting, ENNReal.tsum_eq_iSup_sum]
  refine iSup_le fun F => ?_
  calc ∑ p ∈ F, P.haltWeight p s
      ≤ ∑ p ∈ F, if p.length ≤ F.sup List.length then P.haltWeight p s else 0 := by
        refine Finset.sum_le_sum fun p hp => ?_
        rw [if_pos (Finset.le_sup hp)]
    _ ≤ P.haltedWithin (F.sup List.length) s := by
        rw [haltedWithin_eq]
        exact ENNReal.sum_le_tsum F
    _ ≤ 1 := h.haltedWithin_add_underway _ hs ▸ le_self_add

/-! ### Decay -/

/-- If at most the part `c` is still under way after `n` steps, wherever the process starts,
then `n` further steps leave at most the part `c`. -/
theorem Conserving.underway_add_le (h : P.Conserving I) {n : ℕ} {c : ℝ≥0∞}
    (hc : ∀ t ∈ I, P.underway n t ≤ c) (m : ℕ) (hs : s ∈ I) :
    P.underway (m + n) s ≤ P.underway m s * c := by
  induction m generalizing s with
  | zero =>
    rw [Nat.zero_add, underway]
    by_cases hhalt : s ∈ P.halted
    · have hzero : P.underway n s = 0 := by
        cases n with
        | zero => exact Set.indicator_of_notMem (Set.notMem_compl_iff.mpr hhalt) _
        | succ n => exact mean_of_halted hhalt _
      rw [hzero]
      exact zero_le
    · rw [Set.indicator_of_mem hhalt, Pi.one_apply, one_mul]
      exact hc s hs
  | succ m ih =>
    rw [Nat.succ_add, underway, underway, ← mean_mul]
    exact mean_mono fun t ht => ih (h.closed s hs t ht)

theorem Conserving.underway_mul_le (h : P.Conserving I) {n : ℕ} {c : ℝ≥0∞}
    (hc : ∀ t ∈ I, P.underway n t ≤ c) (k : ℕ) (hs : s ∈ I) : P.underway (k * n) s ≤ c ^ k := by
  induction k with
  | zero =>
    rw [Nat.zero_mul, pow_zero]
    exact h.haltedWithin_add_underway 0 hs ▸ le_add_self
  | succ k ih =>
    rw [Nat.succ_mul, pow_succ]
    exact (h.underway_add_le hc _ hs).trans (mul_le_mul_left ih _)

theorem Conserving.halting_eq_one (h : P.Conserving I) {n : ℕ} {c : ℝ≥0∞} (hc1 : c < 1)
    (hc : ∀ t ∈ I, P.underway n t ≤ c) (hs : s ∈ I) : P.halting s = 1 := by
  refine le_antisymm (h.halting_le_one hs) ?_
  have hlim : Filter.Tendsto (fun k => P.halting s + c ^ k) Filter.atTop (nhds (P.halting s + 0)) :=
    (ENNReal.tendsto_pow_atTop_nhds_zero_of_lt_one hc1).const_add _
  rw [add_zero] at hlim
  refine ge_of_tendsto' hlim fun k => ?_
  rw [← h.haltedWithin_add_underway (k * n) hs]
  exact add_le_add (haltedWithin_le_halting _ s) (h.underway_mul_le hc k hs)

/-- Finitely many states, from each of which the process can halt. -/
theorem Conserving.halting_eq_one_of_finite (h : P.Conserving I) (hfin : I.Finite)
    (hcan : ∀ t ∈ I, ∃ p, P.haltWeight p t ≠ 0) (hs : s ∈ I) : P.halting s = 1 := by
  choose! p hp using hcan
  -- after as many steps as the longest of these paths has, some mass has halted everywhere
  let n := hfin.toFinset.sup fun t => (p t).length
  have hpos : ∀ t ∈ I, P.underway n t < 1 := by
    intro t ht
    have hle : (p t).length ≤ n :=
      Finset.le_sup (f := fun t => (p t).length) (hfin.mem_toFinset.mpr ht)
    have hne : P.haltedWithin n t ≠ 0 := fun hzero => hp t ht
      (le_zero_iff.mp (hzero ▸ (haltWeight_le_haltedWithin _ t).trans (haltedWithin_mono t hle)))
    have hsum := h.haltedWithin_add_underway n ht
    have htop : P.underway n t ≠ ⊤ := ne_top_of_le_ne_top ENNReal.one_ne_top (hsum ▸ le_add_self)
    rw [← hsum, add_comm]
    exact ENNReal.lt_add_right htop hne
  refine h.halting_eq_one (n := n) (c := hfin.toFinset.sup (P.underway n)) ?_ ?_ hs
  · exact (Finset.sup_lt_iff zero_lt_one).mpr fun t ht => hpos t (hfin.mem_toFinset.mp ht)
  · exact fun t ht => Finset.le_sup (hfin.mem_toFinset.mpr ht)

/-! ### Traps -/

/-- A process that surely halts from a state surely halts from the next. -/
theorem Conserving.halting_of_moves (h : P.Conserving I) (hs : s ∈ I) (hone : P.halting s = 1)
    (hst : P.Moves s t) : P.halting t = 1 := by
  have hlive : s ∉ P.halted := fun hhalt => not_moves_of_halted hhalt hst
  have hmean : P.mean P.halting s = P.mean 1 s := by
    rw [h.total s hs hlive, ← hone, halting_eq s, Set.indicator_of_notMem hlive, zero_add]
  by_contra hne
  obtain ⟨a, ha, hat⟩ := hst
  have hlt : P.halting t < 1 := lt_of_le_of_ne (h.halting_le_one (h.closed s hs t ⟨a, ha, hat⟩)) hne
  have htotal : P.mean 1 s = 1 := h.total s hs hlive
  have hprob : P.prob s a ≠ ⊤ := by
    refine ne_top_of_le_ne_top ENNReal.one_ne_top (htotal ▸ le_trans ?_ (ENNReal.le_tsum a))
    rw [hat]
    exact (mul_one _).ge
  refine absurd hmean (ne_of_lt (ENNReal.tsum_lt_tsum (i := a) ?_ (fun b => ?_) ?_))
  · exact ne_top_of_le_ne_top ENNReal.one_ne_top
      ((mean_mono fun u hu => h.halting_le_one (h.closed s hs u hu)).trans_eq htotal)
  · by_cases hb : P.prob s b = 0
    · simp [hb]
    · rcases hu : P.next s b with _ | u
      · rfl
      · exact mul_le_mul_right (h.halting_le_one (h.closed s hs u ⟨b, hb, hu⟩)) _
  · rw [hat]
    exact ENNReal.mul_lt_mul_right ha hprob hlt

/-- On finitely many states the process surely halts exactly if no state that it can reach
is a trap. -/
theorem Conserving.halting_eq_one_iff (h : P.Conserving I) (hfin : I.Finite) (hs : s ∈ I) :
    P.halting s = 1 ↔ ∀ t, Relation.ReflTransGen P.Moves s t → ∃ p, P.haltWeight p t ≠ 0 := by
  have hreach {t : S} (ht : Relation.ReflTransGen P.Moves s t) : t ∈ I := by
    induction ht with
    | refl => exact hs
    | tail _ hmove ih => exact h.closed _ ih _ hmove
  constructor
  · intro hone t ht
    have hhalt : P.halting t = 1 := by
      induction ht with
      | refl => exact hone
      | tail hst hmove ih => exact h.halting_of_moves (hreach hst) ih hmove
    by_contra hno
    push Not at hno
    rw [halting, ENNReal.tsum_eq_zero.mpr hno] at hhalt
    exact zero_ne_one hhalt
  · intro hcan
    have hsub : {t | Relation.ReflTransGen P.Moves s t} ⊆ I := fun t ht => hreach ht
    have hconserving : P.Conserving {t | Relation.ReflTransGen P.Moves s t} :=
      ⟨fun t ht u hu => ht.tail hu, fun t ht => h.total t (hsub ht)⟩
    exact hconserving.halting_eq_one_of_finite (hfin.subset hsub) hcan .refl

end Process

end StochasticEdit.Markov
