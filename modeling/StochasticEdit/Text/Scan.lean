import Mathlib.Data.List.Basic

/-! Loops over the lines of a file that keep something of some lines. What is kept of a line
is appended to what was kept before, other lines change nothing, and on certain lines the
loop fails. -/

namespace StochasticEdit.Text

variable {S L I β : Type*}

/-- A step keeps the item of a line, skips a line without an item and fails on a bad line. -/
structure Scans (step : S → L → Option S) (item? : L → Option I) (bad : L → Prop)
    (kept : S → List β) (value : I → β) : Prop where
  item : ∀ s l i, item? l = some i → ∃ s', step s l = some s' ∧ kept s' = kept s ++ [value i]
  skip : ∀ s l, item? l = none → ¬ bad l → step s l = some s
  fail : ∀ s l, bad l → step s l = none

variable {step : S → L → Option S} {item? : L → Option I} {bad : L → Prop} {kept : S → List β}
  {value : I → β}

/-- One line that is not bad. -/
theorem Scans.line (h : Scans step item? bad kept value) (s : S) {l : L} (hl : ¬ bad l) :
    ∃ s', step s l = some s' ∧ kept s' = kept s ++ (item? l).toList.map value := by
  cases hitem : item? l with
  | none => exact ⟨s, h.skip s l hitem hl, by simp⟩
  | some i => exact h.item s l i hitem

/-- Without bad lines the items of all lines are kept in their order. -/
theorem Scans.run (h : Scans step item? bad kept value) (s : S) (ls : List L)
    (hls : ∀ l ∈ ls, ¬ bad l) :
    ∃ s', ls.foldlM step s = some s' ∧ kept s' = kept s ++ (ls.filterMap item?).map value := by
  induction ls generalizing s with
  | nil => exact ⟨s, rfl, by simp⟩
  | cons l ls ih =>
    obtain ⟨s₁, hstep, hkept₁⟩ := h.line s (hls l (by simp))
    obtain ⟨s₂, hrest, hkept₂⟩ := ih s₁ fun l hl => hls l (by simp [hl])
    refine ⟨s₂, ?_, ?_⟩
    · rw [List.foldlM_cons, hstep]
      exact hrest
    · rw [hkept₂, hkept₁, List.filterMap_cons]
      cases item? l <;> simp

/-- A bad line ends the loop, wherever it stands. -/
theorem Scans.run_bad (h : Scans step item? bad kept value) (s : S) {ls : List L}
    (hls : ∃ l ∈ ls, bad l) : ls.foldlM step s = none := by
  induction ls generalizing s with
  | nil =>
    obtain ⟨l, hl, -⟩ := hls
    exact absurd hl List.not_mem_nil
  | cons l ls ih =>
    rw [List.foldlM_cons]
    by_cases hl : bad l
    · rw [h.fail s l hl]
      rfl
    · obtain ⟨s', hstep, -⟩ := h.line s hl
      obtain ⟨l', hl', hbad⟩ := hls
      have hmem : l' ∈ ls := (List.mem_cons.mp hl').resolve_left fun heq => hl (heq ▸ hbad)
      rw [hstep]
      exact ih s' ⟨l', hmem, hbad⟩

/-- The loop ends with exactly the items if and only if no line is bad. -/
theorem Scans.run_iff (h : Scans step item? bad kept value) (s : S) (ls : List L) :
    (∃ s', ls.foldlM step s = some s' ∧ kept s' = kept s ++ (ls.filterMap item?).map value) ↔
      ∀ l ∈ ls, ¬ bad l := by
  refine ⟨fun hrun l hl hbad => ?_, h.run s ls⟩
  obtain ⟨s', hs', -⟩ := hrun
  rw [h.run_bad s ⟨l, hl, hbad⟩] at hs'
  exact absurd hs' (by simp)

end StochasticEdit.Text
