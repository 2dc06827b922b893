import Mathlib.Data.List.Basic

/-! Texts whose parts stand between separators. Splitting at the separator undoes joining
if and only if no part contains it. -/

namespace StochasticEdit.Text

variable {α : Type*} [DecidableEq α] {a : α}

theorem notMem_of_mem_splitOn {l p : List α} (h : p ∈ l.splitOn a) : a ∉ p := by
  induction l generalizing p with
  | nil =>
    rw [List.splitOn_nil, List.mem_singleton] at h
    rw [h]
    exact List.not_mem_nil
  | cons x l ih =>
    rw [List.splitOn_cons_eq_if_modifyHead] at h
    by_cases hx : x = a
    · rw [if_pos (beq_iff_eq.mpr hx), List.mem_cons] at h
      rcases h with rfl | h
      · exact List.not_mem_nil
      · exact ih h
    · rw [if_neg fun h => hx (beq_iff_eq.mp h)] at h
      cases hs : l.splitOn a with
      | nil => exact absurd hs (List.splitOn_ne_nil a l)
      | cons q qs =>
        rw [hs, List.modifyHead_cons, List.mem_cons] at h
        rcases h with rfl | h
        · rw [List.mem_cons, not_or]
          exact ⟨fun h => hx h.symm, ih (by rw [hs]; exact List.mem_cons_self)⟩
        · exact ih (by rw [hs]; exact List.mem_cons_of_mem _ h)

/-- The parts that a text is split into. -/
theorem splitOn_eq_iff {l : List α} {parts : List (List α)} : l.splitOn a = parts ↔
    parts ≠ [] ∧ (∀ p ∈ parts, a ∉ p) ∧ [a].intercalate parts = l := by
  constructor
  · rintro rfl
    exact ⟨List.splitOn_ne_nil a l, fun p hp => notMem_of_mem_splitOn hp,
      List.intercalate_splitOn a⟩
  · rintro ⟨hne, hno, rfl⟩
    exact List.splitOn_intercalate a hno hne

/-- Joined parts are found again exactly if the separator is in none of them. -/
theorem splitOn_intercalate_iff {parts : List (List α)} (hne : parts ≠ []) :
    ([a].intercalate parts).splitOn a = parts ↔ ∀ p ∈ parts, a ∉ p := by
  rw [splitOn_eq_iff]
  exact ⟨fun h => h.2.1, fun h => ⟨hne, h, rfl⟩⟩

/-- Without separators in the parts the joined text tells all of them. -/
theorem intercalate_inj {parts parts' : List (List α)} (hne : parts ≠ []) (hne' : parts' ≠ [])
    (hno : ∀ p ∈ parts, a ∉ p) (hno' : ∀ p ∈ parts', a ∉ p) :
    [a].intercalate parts = [a].intercalate parts' ↔ parts = parts' := by
  refine ⟨fun h => ?_, congrArg _⟩
  rw [← (splitOn_intercalate_iff hne).mpr hno, h, (splitOn_intercalate_iff hne').mpr hno']

theorem length_splitOn (a : α) (l : List α) : (l.splitOn a).length = l.count a + 1 := by
  induction l with
  | nil => rfl
  | cons x l ih =>
    rw [List.splitOn_cons_eq_if_modifyHead, List.count_cons]
    split_ifs with h
    · rw [List.length_cons, ih]
    · rw [List.length_modifyHead, ih, Nat.add_zero]

/-- A first part that is not the last ends at the first separator. -/
theorem eq_append_of_splitOn {l p q : List α} {ps : List (List α)}
    (h : l.splitOn a = p :: q :: ps) :
    ∃ y, l = p ++ a :: y ∧ a ∉ p ∧ y.splitOn a = q :: ps := by
  obtain ⟨-, hno, hjoin⟩ := splitOn_eq_iff.mp h
  refine ⟨[a].intercalate (q :: ps), ?_, hno p List.mem_cons_self, ?_⟩
  · rw [← hjoin, List.intercalate_cons_cons, List.append_assoc]
    rfl
  · exact List.splitOn_intercalate a (fun r hr => hno r (List.mem_cons_of_mem _ hr))
      (List.cons_ne_nil q ps)

/-- A single part is the whole text. -/
theorem eq_of_splitOn_singleton {l p : List α} (h : l.splitOn a = [p]) : l = p ∧ a ∉ p := by
  obtain ⟨-, hno, hjoin⟩ := splitOn_eq_iff.mp h
  exact ⟨by rw [← hjoin, List.intercalate_singleton], hno p (List.mem_singleton_self p)⟩

omit [DecidableEq α] in
/-- Other characters of a joined text are those of its parts. -/
theorem mem_intercalate_iff {parts : List (List α)} {x : α} (hx : x ≠ a) :
    x ∈ [a].intercalate parts ↔ ∃ p ∈ parts, x ∈ p := by
  induction parts with
  | nil => simp
  | cons p parts ih =>
    cases parts with
    | nil => simp
    | cons q parts =>
      rw [List.intercalate_cons_cons, List.mem_append, List.mem_append, ih]
      simp [hx]

/-! ### Lines -/

/-- Every part is followed by the separator. -/
def terminated (a : α) (parts : List (List α)) : List α := parts.flatMap fun p => p ++ [a]

/-- The parts of a text that are followed by the separator, and what follows the last one
if there is anything. -/
def terminatedParts (a : α) (l : List α) : List (List α) :=
  if (l.splitOn a).getLast? = some [] then (l.splitOn a).dropLast else l.splitOn a

/-- What `terminatedParts` leaves out is empty. -/
theorem getD_terminatedParts (a : α) (l : List α) (k : ℕ) :
    (terminatedParts a l)[k]?.getD [] = (l.splitOn a)[k]?.getD [] := by
  rw [terminatedParts]
  split_ifs with h
  · obtain ⟨parts, hparts⟩ := List.getLast?_eq_some_iff.mp h
    rw [hparts, List.dropLast_concat]
    rcases Nat.lt_trichotomy k parts.length with hk | rfl | hk
    · rw [List.getElem?_append_left hk]
    · rw [List.getElem?_concat_length, List.getElem?_eq_none (Nat.le_refl _)]
      rfl
    · rw [List.getElem?_eq_none (Nat.le_of_lt hk), List.getElem?_eq_none]
      rw [List.length_append, List.length_singleton]
      omega
  · rfl

theorem splitOn_terminated {parts : List (List α)} (h : ∀ p ∈ parts, a ∉ p) :
    (terminated a parts).splitOn a = parts ++ [[]] := by
  induction parts with
  | nil => exact List.splitOn_nil a
  | cons p parts ih =>
    have hrest : terminated a (p :: parts) = p ++ a :: terminated a parts := by
      rw [terminated, List.flatMap_cons, List.append_assoc]
      rfl
    rw [hrest, List.splitOn_append_cons_self_of_not_mem (h p (by simp)),
      ih fun q hq => h q (by simp [hq])]
    rfl

theorem terminatedParts_terminated {parts : List (List α)} (h : ∀ p ∈ parts, a ∉ p) :
    terminatedParts a (terminated a parts) = parts := by
  rw [terminatedParts, splitOn_terminated h, List.getLast?_concat, if_pos rfl, List.dropLast_concat]

end StochasticEdit.Text
