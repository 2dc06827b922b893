import Mathlib.Data.List.Nodup
import Mathlib.Data.Set.Function

/-! Numbers given out in the order in which things are first met. A number that was given
out stays the same when more things are met. -/

namespace StochasticEdit.Text

variable {α : Type*} [DecidableEq α] {seen seen' l : List α} {x : α}

/-- What was met, in order, after the elements of a list. -/
def firstSeen (seen : List α) : List α → List α
  | [] => seen
  | x :: l => firstSeen (if x ∈ seen then seen else seen ++ [x]) l

/-- The number of an element, from 1 on. -/
def number (seen : List α) (x : α) : ℕ := seen.idxOf x + 1

theorem firstSeen_append (seen l l' : List α) :
    firstSeen seen (l ++ l') = firstSeen (firstSeen seen l) l' := by
  induction l generalizing seen with
  | nil => rfl
  | cons x l ih =>
    rw [List.cons_append, firstSeen, ih]
    rfl

theorem prefix_firstSeen (seen l : List α) : seen <+: firstSeen seen l := by
  induction l generalizing seen with
  | nil => exact List.prefix_rfl
  | cons x l ih =>
    rw [firstSeen]
    split_ifs
    · exact ih seen
    · exact (List.prefix_append seen [x]).trans (ih _)

theorem mem_firstSeen : x ∈ firstSeen seen l ↔ x ∈ seen ∨ x ∈ l := by
  induction l generalizing seen with
  | nil => simp [firstSeen]
  | cons y l ih =>
    rw [firstSeen, ih]
    split_ifs with hy
    · by_cases hx : x = y <;> simp [hx, hy]
    · simp [or_assoc]

theorem number_append_of_mem (hx : x ∈ seen) : number (seen ++ l) x = number seen x := by
  rw [number, number, List.idxOf_append_of_mem hx]

theorem number_firstSeen_of_mem (hx : x ∈ seen) : number (firstSeen seen l) x = number seen x := by
  obtain ⟨t, ht⟩ := prefix_firstSeen seen l
  rw [← ht, number_append_of_mem hx]

/-- The next number goes to an element that was not met before. -/
theorem number_concat (hx : x ∉ seen) : number (seen ++ [x]) x = seen.length + 1 := by
  rw [number, List.idxOf_append_of_notMem hx, List.idxOf_cons_self, Nat.add_zero]

theorem nodup_firstSeen (h : seen.Nodup) (l : List α) : (firstSeen seen l).Nodup := by
  induction l generalizing seen with
  | nil => exact h
  | cons x l ih =>
    rw [firstSeen]
    split_ifs with hx
    · exact ih h
    · refine ih ?_
      rw [← List.concat_eq_append]
      exact List.Nodup.concat hx h

theorem number_inj {y : α} (hx : x ∈ seen) : number seen x = number seen y ↔ x = y :=
  Nat.add_right_cancel_iff.trans (List.idxOf_inj hx)

theorem number_getElem (h : seen.Nodup) {i : ℕ} (hi : i < seen.length) :
    number seen seen[i] = i + 1 := by
  rw [number, h.idxOf_getElem]

/-- An element that was met stands where its number says. -/
theorem exists_number (hx : x ∈ seen) :
    ∃ i, ∃ h : i < seen.length, seen[i] = x ∧ number seen x = i + 1 :=
  ⟨seen.idxOf x, List.idxOf_lt_length_of_mem hx, List.getElem_idxOf _, rfl⟩

/-- A renaming that keeps the elements apart keeps the order. -/
theorem firstSeen_map {β : Type*} [DecidableEq β] {f : α → β}
    (hf : Set.InjOn f {x | x ∈ seen ∨ x ∈ l}) :
    firstSeen (seen.map f) (l.map f) = (firstSeen seen l).map f := by
  induction l generalizing seen with
  | nil => rfl
  | cons x l ih =>
    have hmem : f x ∈ seen.map f ↔ x ∈ seen := by
      constructor
      · intro h
        obtain ⟨y, hy, hyx⟩ := List.mem_map.mp h
        exact hf (.inl hy) (.inr List.mem_cons_self) hyx ▸ hy
      · exact List.mem_map_of_mem
    rw [List.map_cons, firstSeen, firstSeen]
    by_cases hx : x ∈ seen
    · rw [if_pos hx, if_pos (hmem.mpr hx)]
      refine ih (hf.mono fun y hy => ?_)
      exact hy.imp_right (List.mem_cons_of_mem x)
    · rw [if_neg hx, if_neg (hmem.not.mpr hx)]
      have hnext : seen.map f ++ [f x] =
          (seen ++ [x]).map f := by rw [List.map_append, List.map_singleton]
      rw [hnext]
      refine ih (hf.mono fun y hy => ?_)
      rcases hy with hy | hy
      · rcases List.mem_append.mp hy with hy | hy
        · exact .inl hy
        · exact .inr (List.mem_singleton.mp hy ▸ List.mem_cons_self)
      · exact .inr (List.mem_cons_of_mem x hy)

/-- The numbers that are given out appear in the order 1, 2, 3 and so on. -/
theorem firstSeen_map_number (l : List α) :
    firstSeen [] (l.map (number (firstSeen [] l))) = List.range' 1 (firstSeen [] l).length := by
  have hinj : Set.InjOn (number (firstSeen [] l)) {x | x ∈ [] ∨ x ∈ l} := fun x hx y _ h =>
    (number_inj (mem_firstSeen.mpr hx)).mp h
  have hmap : firstSeen [] (l.map (number (firstSeen [] l))) =
      (firstSeen [] l).map (number (firstSeen [] l)) :=
    firstSeen_map hinj
  rw [hmap]
  refine List.ext_getElem (by rw [List.length_map, List.length_range']) fun k hk _ => ?_
  rw [List.getElem_map, List.getElem_range', number,
    (nodup_firstSeen List.nodup_nil l).idxOf_getElem]
  omega

end StochasticEdit.Text
