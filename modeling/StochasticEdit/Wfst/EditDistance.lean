import Mathlib.Algebra.Order.Ring.Nat
import Mathlib.Algebra.Order.Ring.WithTop
import Mathlib.Algebra.Tropical.Basic
import Mathlib.Data.Nat.Cast.Order.Ring
import Mathlib.Data.Set.Basic
import Mathlib.Order.Bounds.Basic
import Mathlib.Tactic.Common

/-! The Levenshtein distance of two lists, by its recursion, and the edit scripts between
two lists over two alphabets. The distance is the least cost of a script, which is the sum
over all scripts in the semiring of least costs. -/

namespace StochasticEdit.Wfst

variable {α : Type*} [DecidableEq α]

/-- The row of the distance table for one more symbol `x` on the left. -/
def levenshteinRow (x : α) (rest : List α → ℕ) : List α → ℕ
  | [] => rest [] + 1
  | y :: ys => min (rest (y :: ys) + 1)
      (min (levenshteinRow x rest ys + 1) (rest ys + if x = y then 0 else 1))

def levenshtein : List α → List α → ℕ
  | [], ys => ys.length
  | x :: xs, ys => levenshteinRow x (levenshtein xs) ys

theorem levenshtein_cons_cons (x y : α) (xs ys : List α) : levenshtein (x :: xs) (y :: ys) =
    min (levenshtein xs (y :: ys) + 1)
      (min (levenshtein (x :: xs) ys + 1) (levenshtein xs ys + if x = y then 0 else 1)) := rfl

theorem levenshtein_delete_le (x : α) (xs ys : List α) :
    levenshtein (x :: xs) ys ≤ levenshtein xs ys + 1 := by
  cases ys with
  | nil => exact le_rfl
  | cons y ys => exact min_le_left _ _

theorem levenshtein_insert_le (y : α) (xs ys : List α) :
    levenshtein xs (y :: ys) ≤ levenshtein xs ys + 1 := by
  cases xs with
  | nil => exact le_rfl
  | cons x xs => exact (min_le_right _ _).trans (min_le_left _ _)

theorem levenshtein_substitute_le (x y : α) (xs ys : List α) :
    levenshtein (x :: xs) (y :: ys) ≤ levenshtein xs ys + if x = y then 0 else 1 :=
  (min_le_right _ _).trans (min_le_right _ _)

/-- Only equal lists have the distance 0. -/
theorem levenshtein_eq_zero_iff {xs ys : List α} : levenshtein xs ys = 0 ↔ xs = ys := by
  induction xs generalizing ys with
  | nil => rw [levenshtein, List.length_eq_zero_iff, eq_comm]
  | cons x xs ih =>
    cases ys with
    | nil =>
      exact ⟨fun h => absurd h (Nat.succ_ne_zero _), fun h => absurd h (List.cons_ne_nil _ _)⟩
    | cons y ys =>
      have hmin : levenshtein (x :: xs) (y :: ys) = 0 ↔
          (levenshtein xs ys + if x = y then 0 else 1) = 0 := by
        rw [levenshtein_cons_cons]
        omega
      rw [hmin, Nat.add_eq_zero_iff, ih, List.cons.injEq, and_comm]
      split_ifs with hxy <;> simp [hxy]

/-- A script turns `xs` into `ys` with `n` operations that cost one; it deletes symbols of
`I`, inserts symbols of `O` and substitutes one by the other. -/
inductive Edits (I O : Set α) : List α → List α → ℕ → Prop
  | nil : Edits I O [] [] 0
  | delete {x : α} {xs ys : List α} {n : ℕ} : x ∈ I → Edits I O xs ys n →
    Edits I O (x :: xs) ys (n + 1)
  | insert {y : α} {xs ys : List α} {n : ℕ} : y ∈ O → Edits I O xs ys n →
    Edits I O xs (y :: ys) (n + 1)
  | substitute {x y : α} {xs ys : List α} {n : ℕ} : x ∈ I → y ∈ O → Edits I O xs ys n →
      Edits I O (x :: xs) (y :: ys) (n + if x = y then 0 else 1)

variable {I O : Set α}

/-- No script is cheaper than the distance. -/
theorem Edits.levenshtein_le {xs ys : List α} {n : ℕ} (h : Edits I O xs ys n) :
    levenshtein xs ys ≤ n := by
  induction h with
  | nil => exact le_rfl
  | delete _ _ ih => exact (levenshtein_delete_le _ _ _).trans (Nat.add_le_add_right ih 1)
  | insert _ _ ih => exact (levenshtein_insert_le _ _ _).trans (Nat.add_le_add_right ih 1)
  | substitute _ _ _ ih =>
    exact (levenshtein_substitute_le _ _ _ _).trans (Nat.add_le_add_right ih _)

theorem Edits.left_mem {xs ys : List α} {n : ℕ} (h : Edits I O xs ys n) : ∀ x ∈ xs, x ∈ I := by
  induction h with
  | nil => simp
  | delete hx _ ih => simpa [hx] using ih
  | insert _ _ ih => exact ih
  | substitute hx _ _ ih => simpa [hx] using ih

theorem Edits.right_mem {xs ys : List α} {n : ℕ} (h : Edits I O xs ys n) : ∀ y ∈ ys, y ∈ O := by
  induction h with
  | nil => simp
  | delete _ _ ih => exact ih
  | insert hy _ ih => simpa [hy] using ih
  | substitute _ hy _ ih => simpa [hy] using ih

theorem edits_nil {ys : List α} (hy : ∀ y ∈ ys, y ∈ O) : Edits I O [] ys ys.length := by
  induction ys with
  | nil => exact .nil
  | cons y ys ih => exact .insert (hy y (by simp)) (ih fun z hz => hy z (by simp [hz]))

/-- Over the alphabets of both lists there is a script that costs the distance. -/
theorem edits_levenshtein {xs ys : List α} (hx : ∀ x ∈ xs, x ∈ I) (hy : ∀ y ∈ ys, y ∈ O) :
    Edits I O xs ys (levenshtein xs ys) := by
  induction xs generalizing ys with
  | nil => exact edits_nil hy
  | cons x xs ih =>
    have hxs : ∀ z ∈ xs, z ∈ I := fun z hz => hx z (by simp [hz])
    induction ys with
    | nil => exact .delete (hx x (by simp)) (ih hxs hy)
    | cons y ys ihy =>
      have hys : ∀ z ∈ ys, z ∈ O := fun z hz => hy z (by simp [hz])
      rw [levenshtein_cons_cons]
      rcases min_choice (levenshtein xs (y :: ys) + 1)
        (min (levenshtein (x :: xs) ys + 1) (levenshtein xs ys + if x = y then 0 else 1)) with h | h
      · rw [h]
        exact .delete (hx x (by simp)) (ih hxs hy)
      · rw [h]
        rcases min_choice (levenshtein (x :: xs) ys + 1)
          (levenshtein xs ys + if x = y then 0 else 1) with h | h
        · rw [h]
          exact .insert (hy y (by simp)) (ihy hys)
        · rw [h]
          exact .substitute (hx x (by simp)) (hy y (by simp)) (ih hxs hys)

/-- The distance is the least cost of a script exactly over the alphabets of both lists. -/
theorem isLeast_edits_iff {xs ys : List α} : IsLeast {n | Edits I O xs ys n} (levenshtein xs ys) ↔
    (∀ x ∈ xs, x ∈ I) ∧ ∀ y ∈ ys, y ∈ O := by
  constructor
  · rintro ⟨hmem, -⟩
    exact ⟨Edits.left_mem hmem, Edits.right_mem hmem⟩
  · rintro ⟨hx, hy⟩
    exact ⟨edits_levenshtein hx hy, fun n hn => Edits.levenshtein_le hn⟩

/-! ### The sum over all scripts -/

section ScriptSum
variable {R : Type*} [CommSemiring R] (c : R)

/-- The row of the table of sums for one more symbol `x` on the left. -/
def scriptRow (x : α) (rest : List α → R) : List α → R
  | [] => c * rest []
  | y :: ys => c * rest (y :: ys) + (c * scriptRow x rest ys + (if x = y then 1 else c) * rest ys)

/-- The sum over the scripts between two lists, where every operation that costs one has
the weight `c`. -/
def scriptSum : List α → List α → R
  | [], ys => c ^ ys.length
  | x :: xs, ys => scriptRow c x (scriptSum xs) ys

theorem scriptSum_nil_cons (y : α) (ys : List α) :
    scriptSum c [] (y :: ys) = c * scriptSum c [] ys :=
  pow_succ' c ys.length

theorem scriptSum_cons_nil (x : α) (xs : List α) : scriptSum c (x :: xs)
    [] = c * scriptSum c xs [] := rfl

theorem scriptSum_cons_cons (x y : α) (xs ys : List α) : scriptSum c (x :: xs) (y :: ys) =
    c * scriptSum c xs (y :: ys) +
      (c * scriptSum c (x :: xs) ys + (if x = y then 1 else c) * scriptSum c xs ys) := rfl

theorem map_scriptSum {S F : Type*} [CommSemiring S] [FunLike F R S] [RingHomClass F R S] (f : F)
    (xs ys : List α) :
    f (scriptSum c xs ys) = scriptSum (f c) xs ys := by
  induction xs generalizing ys with
  | nil => exact map_pow f c ys.length
  | cons x xs ih =>
    induction ys with
    | nil => rw [scriptSum_cons_nil, scriptSum_cons_nil, map_mul, ih]
    | cons y ys ih' =>
      rw [scriptSum_cons_cons, scriptSum_cons_cons, map_add, map_add, map_mul, map_mul, map_mul,
        ih, ih', ih,
        apply_ite f, map_one]

/-- At weight zero only the script that keeps every symbol is left. -/
theorem scriptSum_zero_self (xs : List α) : scriptSum (0 : R) xs xs = 1 := by
  induction xs with
  | nil => exact pow_zero 0
  | cons x xs ih =>
    rw [scriptSum_cons_cons, if_pos rfl, zero_mul, zero_mul, zero_add, zero_add, one_mul, ih]

end ScriptSum

/-! ### The distance as a sum -/

section Least

open Tropical

theorem trop_cost (m n : ℕ) :
    trop ((m + n : ℕ) : WithTop ℕ) = trop (n : WithTop ℕ) * trop (m : WithTop ℕ) := by
  rw [← trop_add, add_comm, Nat.cast_add]

/-- The distance is the sum over the scripts in the semiring of least costs. -/
theorem scriptSum_trop (xs ys : List α) :
    scriptSum (trop ((1 : ℕ) : WithTop ℕ)) xs ys = trop (levenshtein xs ys : WithTop ℕ) := by
  induction xs generalizing ys with
  | nil =>
    show trop ((1 : ℕ) : WithTop ℕ) ^ ys.length = trop ((ys.length : ℕ) : WithTop ℕ)
    rw [← trop_nsmul, nsmul_eq_mul, Nat.cast_one, mul_one]
  | cons x xs ih =>
    induction ys with
    | nil =>
      show _ = trop ((levenshtein xs [] + 1 : ℕ) : WithTop ℕ)
      rw [scriptSum_cons_nil, ih, trop_cost]
    | cons y ys ih' =>
      have hcost : (if x = y then 1 else trop ((1 : ℕ) : WithTop ℕ)) =
          trop ((if x = y then 0 else 1 : ℕ) : WithTop ℕ) := by
        split_ifs <;> rfl
      rw [scriptSum_cons_cons, ih, ih', ih, hcost, ← trop_cost, ← trop_cost, ← trop_cost,
        ← trop_min, ← trop_min, levenshtein_cons_cons, Nat.mono_cast.map_min,
        Nat.mono_cast.map_min]

end Least

/-! ### Renamed symbols -/

section Renamed
variable {β : Type*} [DecidableEq β] {f : α → β}

/-- Names that keep the symbols apart do not change the sum, -/
theorem scriptSum_map {R : Type*} [CommSemiring R] (c : R) {xs ys : List α}
    (hf : ∀ x ∈ xs, ∀ y ∈ ys, f x = f y → x = y) :
    scriptSum c (xs.map f) (ys.map f) = scriptSum c xs ys := by
  induction xs generalizing ys with
  | nil => exact congrArg (c ^ ·) (List.length_map f)
  | cons x xs ih =>
    obtain ⟨hx, hxs⟩ := List.forall_mem_cons.mp hf
    induction ys with
    | nil =>
      show c * scriptSum c (xs.map f) [] = c * scriptSum c xs []
      rw [← List.map_nil (f := f), ih (by simp)]
    | cons y ys ih' =>
      have hys : ∀ z ∈ xs, ∀ y ∈ ys, f z = f y → z = y := fun z hz y hy =>
        hxs z hz y (List.mem_cons_of_mem _ hy)
      have hsame : f x = f y ↔ x = y := ⟨hx y List.mem_cons_self, congrArg f⟩
      have hrow := ih' (fun z hz y hy => hf z hz y (List.mem_cons_of_mem _ hy))
        (fun y hy => hx y (List.mem_cons_of_mem _ hy)) hys
      rw [List.map_cons] at hrow
      rw [List.map_cons, List.map_cons, scriptSum_cons_cons, scriptSum_cons_cons, ← List.map_cons,
        ih hxs, hrow, ih hys, if_congr hsame rfl rfl]

/-- and so not the distance. -/
theorem levenshtein_map {xs ys : List α} (hf : ∀ x ∈ xs, ∀ y ∈ ys, f x = f y → x = y) :
    levenshtein (xs.map f) (ys.map f) = levenshtein xs ys := by
  have hsum := scriptSum_map (Tropical.trop ((1 : ℕ) : WithTop ℕ)) hf
  rw [scriptSum_trop, scriptSum_trop] at hsum
  exact Nat.cast_injective (Tropical.trop_injective hsum)

end Renamed

end StochasticEdit.Wfst
