import StochasticEdit.Generator.Scripts
import Mathlib.Data.Set.Card

/-! The number of scripts. A script that turns one string into another is a path through the
grid of their lengths, so their number is a Delannoy number. -/

namespace StochasticEdit.Generator

/-- The number of paths through a grid with steps to the right, down and diagonal. -/
def delannoy : ℕ → ℕ → ℕ
  | 0, _ => 1
  | _ + 1, 0 => 1
  | m + 1, n + 1 => delannoy (m + 1) n + (delannoy m n + delannoy m (n + 1))

/-- The scripts begin with an insertion, a substitution or a deletion. -/
theorem scripts_cons_cons (u v : Sym) (x y : List Sym) : scripts (u :: x) (v :: y) =
    List.cons (.ins v) '' scripts (u :: x) y ∪
      (List.cons (.sub v) '' scripts x y ∪ List.cons .del '' scripts x (v :: y)) := by
  ext es
  constructor
  · rintro ⟨hcount, hspelled⟩
    cases es with
    | nil => exact absurd hspelled (by simp [spelled])
    | cons e es =>
      rw [consumptions_cons] at hcount
      rw [spelled_cons] at hspelled
      cases e with
      | ins w =>
        obtain ⟨rfl, hrest⟩ := List.cons.inj hspelled
        exact .inl ⟨es, ⟨hcount, hrest⟩, rfl⟩
      | sub w =>
        obtain ⟨rfl, hrest⟩ := List.cons.inj hspelled
        exact .inr (.inl ⟨es, ⟨Nat.succ.inj hcount, hrest⟩, rfl⟩)
      | del => exact .inr (.inr ⟨es, ⟨Nat.succ.inj hcount, hspelled⟩, rfl⟩)
  · rintro (⟨es, ⟨hcount, hspelled⟩, rfl⟩ | ⟨es, ⟨hcount, hspelled⟩, rfl⟩ | ⟨es,
      ⟨hcount, hspelled⟩, rfl⟩)
    · exact ⟨by rw [consumptions_cons]; exact hcount, by rw [spelled_cons, hspelled]; rfl⟩
    · exact ⟨by rw [consumptions_cons, hcount]; rfl, by rw [spelled_cons, hspelled]; rfl⟩
    · exact ⟨by rw [consumptions_cons, hcount]; rfl, by rw [spelled_cons, hspelled]; rfl⟩

theorem scripts_nil (y : List Sym) : scripts [] y = {y.map .ins} := by
  ext es
  constructor
  · rintro ⟨hcount, rfl⟩
    induction es with
    | nil => rfl
    | cons e es ih =>
      rw [consumptions_cons] at hcount
      cases e with
      | ins v => exact congrArg (List.cons (.ins v)) (ih hcount)
      | sub v => exact absurd hcount (Nat.succ_ne_zero _)
      | del => exact absurd hcount (Nat.succ_ne_zero _)
  · rintro rfl
    have hall := spelled_rewriteAll 0 y
    have hnone := consumptions_rewriteAll 0 y
    rw [rewriteAll, List.replicate_zero, List.append_nil] at hall hnone
    exact ⟨hnone, hall⟩

theorem scripts_cons_nil (u : Sym) (x : List Sym) :
    scripts (u :: x) [] = List.cons .del '' scripts x [] := by
  ext es
  constructor
  · rintro ⟨hcount, hspelled⟩
    cases es with
    | nil => exact absurd hcount (Nat.succ_ne_zero _).symm
    | cons e es =>
      rw [consumptions_cons] at hcount
      rw [spelled_cons] at hspelled
      cases e with
      | ins w => exact absurd hspelled (List.cons_ne_nil _ _)
      | sub w => exact absurd hspelled (List.cons_ne_nil _ _)
      | del => exact ⟨es, ⟨Nat.succ.inj hcount, hspelled⟩, rfl⟩
  · rintro ⟨es, ⟨hcount, hspelled⟩, rfl⟩
    exact ⟨by rw [consumptions_cons, hcount]; rfl, by rw [spelled_cons, hspelled]; rfl⟩

theorem encard_scripts (x y : List Sym) : (scripts x y).encard = delannoy x.length y.length := by
  have himage (e : Edit) (S : Set (List Edit)) : (List.cons e '' S).encard = S.encard :=
    List.cons_injective.encard_image S
  have hdisjoint {e e' : Edit} (hne : e ≠ e') (S S' : Set (List Edit)) :
      Disjoint (List.cons e '' S) (List.cons e' '' S') := by
    rw [Set.disjoint_left]
    rintro _ ⟨es, -, rfl⟩ ⟨es', -, heq⟩
    exact hne (List.cons.inj heq).1.symm
  induction x generalizing y with
  | nil =>
    rw [scripts_nil, Set.encard_singleton, List.length_nil, delannoy]
    rfl
  | cons u x ihx =>
    induction y with
    | nil =>
      rw [scripts_cons_nil, himage, ihx]
      cases x <;> simp [delannoy]
    | cons v y ihy =>
      rw [scripts_cons_cons, Set.encard_union_eq, Set.encard_union_eq, himage, himage, himage,
        ihx, ihx, ihy]
      · simp [delannoy]
      · exact hdisjoint (by simp) _ _
      · rw [Set.disjoint_union_right]
        exact ⟨hdisjoint (by simp) _ _, hdisjoint (by simp) _ _⟩

theorem scripts_finite (x y : List Sym) : (scripts x y).Finite :=
  Set.finite_of_encard_eq_coe (encard_scripts x y)

end StochasticEdit.Generator
