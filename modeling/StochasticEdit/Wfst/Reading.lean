import StochasticEdit.Markov.Halting
import StochasticEdit.Wfst.Group
import StochasticEdit.Wfst.Mass

/-! A transducer that reads a string, as a process: it is in a state and has the rest of the
string before it. Its halting paths are the accepting paths that read the string. -/

namespace StochasticEdit.Wfst

open scoped ENNReal

/-- What is left of a string behind a label, `none` if the string does not go on with it. -/
def readLabel (i : ℤ) : List ℤ → Option (List ℤ)
  | [] => if i = 0 then some [] else none
  | l :: L => if i = 0 then some (l :: L) else if l = i then some L else none

theorem readLabel_eq_some_iff {i : ℤ} {L L' : List ℤ} :
    readLabel i L = some L' ↔ VectorFst.word i ++ L' = L := by
  unfold readLabel VectorFst.word
  cases L with
  | nil => by_cases hi : i = 0 <;> simp [hi, eq_comm]
  | cons l L =>
    by_cases hi : i = 0
    · simp [hi, eq_comm]
    · by_cases hl : l = i
      · simp [hi, hl, eq_comm]
      · have hne : ¬ i = l := fun h => hl h.symm
        simp [hi, hl, hne]

namespace VectorFst

variable {W : Type*} {F : VectorFst W}

/-- No arc leaves a final state. -/
def EndsFinally (F : VectorFst W) : Prop :=
  ∀ q, (F.final? q).isSome → ∀ e a, F.arc? e ≠ some (q, a)

/-- The arc `e`, taken in a state with a rest of the string before it. -/
def readArc (F : VectorFst W) (s : ℕ × List ℤ) (e : ℕ) : Option (ℕ × List ℤ) :=
  (F.arc? e).bind fun r =>
    if r.1 = s.1 then (readLabel r.2.ilabel s.2).map fun L => (r.2.nextstate, L) else none

theorem readArc_eq_some_iff {q r e : ℕ} {L L' : List ℤ} : F.readArc (q, L) e = some (r, L') ↔
    ∃ a, F.arc? e = some (q, a) ∧ a.nextstate = r ∧ word a.ilabel ++ L' = L := by
  rw [readArc, Option.bind_eq_some_iff]
  constructor
  · rintro ⟨⟨q', a⟩, ha, h⟩
    split_ifs at h with hq
    obtain ⟨L'', hL, heq⟩ := Option.map_eq_some_iff.mp h
    obtain ⟨rfl, rfl⟩ := Prod.mk.inj heq
    obtain rfl : q' = q := hq
    exact ⟨a, ha, rfl, readLabel_eq_some_iff.mp hL⟩
  · rintro ⟨a, ha, rfl, hL⟩
    refine ⟨_, ha, ?_⟩
    rw [if_pos rfl, readLabel_eq_some_iff.mpr hL]
    rfl

/-- The process that reads with the arc probabilities `pr`, and halts in a final state at the
end of the string. -/
noncomputable def reader (F : VectorFst W) (pr : ℕ → ℝ≥0∞) (h : F.EndsFinally) :
    Markov.Process (ℕ × List ℤ) ℕ where
  next := F.readArc
  prob _ e := pr e
  halted := {s | (F.final? s.1).isSome ∧ s.2 = []}
  stuck := by
    rintro ⟨q, L⟩ ⟨hfinal, -⟩ e
    rw [readArc, Option.bind_eq_none_iff]
    rintro ⟨q', a⟩ ha
    refine if_neg ?_
    rintro rfl
    exact h q' hfinal e a ha

/-- The paths from `q` to a final state that read `L`. -/
def readings (F : VectorFst W) (q : ℕ) (L : List ℤ) : Set (List ℕ) :=
  {p | (∃ r, walk F.ends q p = some r ∧ (F.final? r).isSome) ∧ F.istring p = L}

variable {pr : ℕ → ℝ≥0∞} {h : F.EndsFinally}

theorem cons_mem_readings {q e : ℕ} {p : List ℕ} {L : List ℤ} : e :: p ∈ F.readings q L ↔
    ∃ a L', F.arc? e = some (q, a) ∧ word a.ilabel ++ L' = L ∧ p ∈ F.readings a.nextstate L' := by
  constructor
  · rintro ⟨⟨r, hwalk, hr⟩, hL⟩
    obtain ⟨a, ha, hp⟩ := walk_cons_arc_iff.mp hwalk
    rw [istring_cons ha] at hL
    exact ⟨a, F.istring p, ha, hL, ⟨r, hp, hr⟩, rfl⟩
  · rintro ⟨a, L', ha, rfl, ⟨r, hp, hr⟩, rfl⟩
    exact ⟨⟨r, walk_cons_arc_iff.mpr ⟨a, ha, hp⟩, hr⟩, istring_cons ha p⟩

theorem haltWeight_reader (p : List ℕ) (q : ℕ) (L : List ℤ) :
    (F.reader pr h).haltWeight p (q, L) = (F.readings q L).indicator (pathWeight pr) p := by
  induction p generalizing q L with
  | nil =>
    have hnil : [] ∈ F.readings q L ↔ (F.final? q).isSome ∧ L = [] := by
      constructor
      · rintro ⟨⟨r, hr, hfinal⟩, hL⟩
        obtain rfl := Option.some.inj hr
        exact ⟨hfinal, hL.symm⟩
      · rintro ⟨hfinal, rfl⟩
        exact ⟨⟨q, rfl, hfinal⟩, rfl⟩
    by_cases hq : (F.final? q).isSome ∧ L = []
    · rw [Set.indicator_of_mem (hnil.mpr hq)]
      exact Set.indicator_of_mem (show (q, L) ∈ (F.reader pr h).halted from hq) _
    · rw [Set.indicator_of_notMem fun hmem => hq (hnil.mp hmem)]
      exact Set.indicator_of_notMem (show (q, L) ∉ (F.reader pr h).halted from hq) _
  | cons e p ih =>
    rw [Markov.Process.haltWeight]
    show pr e * (F.readArc (q, L) e).elim 0 _ = _
    rcases hnext : F.readArc (q, L) e with _ | ⟨r, L'⟩
    · rw [Option.elim_none, mul_zero, Set.indicator_of_notMem]
      intro hmem
      obtain ⟨a, L', ha, hL, -⟩ := cons_mem_readings.mp hmem
      rw [readArc_eq_some_iff.mpr ⟨a, ha, rfl, hL⟩] at hnext
      contradiction
    · obtain ⟨a, ha, rfl, hL⟩ := readArc_eq_some_iff.mp hnext
      have hiff : e :: p ∈ F.readings q L ↔ p ∈ F.readings a.nextstate L' := by
        rw [cons_mem_readings]
        constructor
        · rintro ⟨b, L'', hb, hL'', hp⟩
          obtain rfl : a = b := by simpa using ha.symm.trans hb
          rwa [← List.append_cancel_left (hL''.trans hL.symm)]
        · exact fun hp => ⟨a, L', ha, hL, hp⟩
      rw [Option.elim_some, ih]
      by_cases hp : p ∈ F.readings a.nextstate L'
      · rw [Set.indicator_of_mem hp, Set.indicator_of_mem (hiff.mpr hp), pathWeight_cons]
      · rw [Set.indicator_of_notMem hp,
          Set.indicator_of_notMem fun hmem => hp (hiff.mp hmem), mul_zero]

theorem halting_reader (q : ℕ) (L : List ℤ) :
    (F.reader pr h).halting (q, L) = totalWeight pr (F.readings q L) := by
  rw [Markov.Process.halting, totalWeight_eq]
  exact tsum_congr fun p => haltWeight_reader p q L

theorem readings_start {q₀ : ℕ} (hs : F.start = some q₀) (L : List ℤ) :
    F.readings q₀ L = {p | F.Accepts p ∧ F.istring p = L} := by
  ext p
  constructor
  · rintro ⟨⟨r, hp, hr⟩, hL⟩
    exact ⟨⟨r, q₀, hs, hp, hr⟩, hL⟩
  · rintro ⟨⟨r, q, hq, hp, hr⟩, hL⟩
    obtain rfl := Option.some.inj (hs.symm.trans hq)
    exact ⟨⟨r, hp, hr⟩, hL⟩

/-- The process moves along the paths of positive weight. -/
theorem reaches_reader_iff {q r : ℕ} {L L' : List ℤ} :
    Relation.ReflTransGen (F.reader pr h).Moves (q, L) (r, L') ↔
      ∃ p, walk F.ends q p = some r ∧ F.istring p ++ L' = L ∧ pathWeight pr p ≠ 0 := by
  constructor
  · intro hreach
    generalize hs : ((q, L) : ℕ × List ℤ) = s at hreach
    generalize ht : ((r, L') : ℕ × List ℤ) = t at hreach
    induction hreach using Relation.ReflTransGen.head_induction_on generalizing q L with
    | refl =>
      obtain ⟨rfl, rfl⟩ := Prod.mk.inj (hs.trans ht.symm)
      exact ⟨[], rfl, rfl, one_ne_zero⟩
    | @head s s' hmove _ ih =>
      obtain ⟨q', M⟩ := s'
      subst hs
      obtain ⟨e, he, hnext⟩ := hmove
      obtain ⟨a, ha, rfl, hL⟩ := readArc_eq_some_iff.mp hnext
      obtain ⟨p, hp, hM, hw⟩ := ih rfl
      refine ⟨e :: p, walk_cons_arc_iff.mpr ⟨a, ha, hp⟩, ?_, ?_⟩
      · rw [istring_cons ha, List.append_assoc, hM]
        exact hL
      · rw [pathWeight_cons]
        exact mul_ne_zero he hw
  · rintro ⟨p, hp, rfl, hw⟩
    induction p generalizing q with
    | nil =>
      obtain rfl := Option.some.inj hp
      exact .refl
    | cons e p ih =>
      obtain ⟨a, ha, hwalk⟩ := walk_cons_arc_iff.mp hp
      rw [pathWeight_cons] at hw
      refine .head ⟨e, left_ne_zero_of_mul hw, readArc_eq_some_iff.mpr ⟨a, ha, rfl, ?_⟩⟩
        (ih hwalk (right_ne_zero_of_mul hw))
      rw [istring_cons ha, List.append_assoc]
      rfl

/-- With final weights 1, the sum of the paths that relate two strings is that of their arcs. -/
theorem mass_eq_totalWeight {F : VectorFst ℝ≥0∞} (hfinal : ∀ q w, F.final? q = some w → w = 1)
    (s t : List ℤ) :
    F.mass s t = totalWeight F.arcWeight {p | F.Accepts p ∧ F.istring p = s ∧ F.ostring p = t} := by
  rw [mass, totalWeight_eq]
  refine tsum_congr fun p => ?_
  by_cases hst : F.istring p = s ∧ F.ostring p = t
  · rw [if_pos hst]
    by_cases hacc : F.Accepts p
    · obtain ⟨q, hq⟩ := id hacc
      obtain ⟨w, hw⟩ := Option.isSome_iff_exists.mp hq.choose_spec.2.2
      have hmem : p ∈ {p | F.Accepts p ∧ F.istring p = s ∧ F.ostring p = t} := ⟨hacc, hst⟩
      rw [Set.indicator_of_mem hmem, value_of_acceptsAt hq, finalWeight, hw, hfinal q w hw]
      exact mul_one _
    · rw [value_eq_zero hacc, Set.indicator_of_notMem fun hmem => hacc hmem.1]
  · rw [if_neg hst, Set.indicator_of_notMem fun hmem => hst hmem.2]

end VectorFst

end StochasticEdit.Wfst
