import StochasticEdit.Wfst.Relation

/-! Linear machines: a chain of states with one arc from each to the next. Such a machine
has a single accepting path, which spells its labels in their order. -/

namespace StochasticEdit.Wfst

variable {W V : Type*}

/-- The states from number `k` on, with the final weight of the last. -/
def chainStates [One W] (final : Option W) : ℕ → List (ℤ × ℤ) → List (State W)
  | _, [] => [⟨final, []⟩]
  | k, (i, o) :: l => ⟨none, [⟨i, o, 1, k + 1⟩]⟩ :: chainStates final (k + 1) l

/-- The linear machine with the given input and output labels. -/
def linear (W : Type*) [One W] (l : List (ℤ × ℤ)) : VectorFst W :=
  ⟨some 0, chainStates (some 1) 0 l⟩

theorem length_chainStates [One W] (final : Option W) (k : ℕ) (l : List (ℤ × ℤ)) :
    (chainStates final k l).length = l.length + 1 := by
  induction l generalizing k with
  | nil => rfl
  | cons p l ih => rw [chainStates, List.length_cons, ih, List.length_cons]

theorem getElem?_chainStates [One W] (final : Option W) (k : ℕ) {l : List (ℤ × ℤ)} {j : ℕ}
    (hj : j < l.length) :
    (chainStates final k l)[j]? = some ⟨none, [⟨l[j].1, l[j].2, 1, k + j + 1⟩]⟩ := by
  induction l generalizing k j with
  | nil => exact absurd hj (Nat.not_lt_zero j)
  | cons p l ih =>
    cases j with
    | zero => rfl
    | succ j =>
      rw [chainStates, List.getElem?_cons_succ, ih (k + 1) (Nat.lt_of_succ_lt_succ hj),
        List.getElem_cons_succ,
        show k + 1 + j = k + (j + 1) by omega]

theorem getElem?_chainStates_length [One W] (final : Option W) (k : ℕ) (l : List (ℤ × ℤ)) :
    (chainStates final k l)[l.length]? = some ⟨final, []⟩ := by
  induction l generalizing k with
  | nil => rfl
  | cons p l ih => rw [chainStates, List.length_cons, List.getElem?_cons_succ, ih]

theorem modify_chainStates [One W] (w : W) (k : ℕ) (l : List (ℤ × ℤ)) :
    (chainStates none k l).modify l.length (fun s => { s with final := some w }) =
      chainStates (some w) k l := by
  induction l generalizing k with
  | nil => rfl
  | cons p l ih => rw [chainStates, chainStates, List.length_cons, List.modify_succ_cons, ih]

theorem map_linear [One W] [One V] {f : W → V} (hf : f 1 = 1) (l : List (ℤ × ℤ)) :
    (linear W l).map f f = linear V l := by
  have hstates (k : ℕ) : (chainStates (some (1 : W)) k l).map (State.map f f) =
      chainStates (some (1 : V)) k l := by
    induction l generalizing k with
    | nil => simp [chainStates, State.map, hf]
    | cons p l ih => simp [chainStates, State.map, Arc.map, hf, ih]
  rw [linear, VectorFst.map, hstates]
  rfl

section Paths
variable [One W] (l : List (ℤ × ℤ))

theorem arc?_linear (e : ℕ) :
    (linear W l).arc? e = l[e]?.map fun p => (e, ⟨p.1, p.2, 1, e + 1⟩) := by
  have harcs (k : ℕ) : arcsFrom k (chainStates (some (1 : W)) k l) =
      (l.zipIdx k).map fun p => (p.2, ⟨p.1.1, p.1.2, 1, p.2 + 1⟩) := by
    induction l generalizing k with
    | nil => rfl
    | cons p l ih =>
      rw [chainStates, arcsFrom, ih, List.zipIdx_cons, List.map_cons]
      rfl
  rw [VectorFst.arc?, linear, harcs, List.getElem?_map, List.getElem?_zipIdx, Option.map_map]
  cases l[e]? <;> simp

theorem final?_linear (q : ℕ) : (linear W l).final? q = if q = l.length then some 1 else none := by
  have hstates (k : ℕ) : (chainStates (some (1 : W)) k l)[q]?.bind State.final =
      if q = l.length then some 1 else none := by
    induction l generalizing k q with
    | nil => cases q <;> simp [chainStates]
    | cons p l ih =>
      cases q with
      | zero => simp [chainStates]
      | succ q => simp [chainStates, ih q (k + 1)]
  exact hstates 0

variable {l}

/-- From state `q` on the rest of the labels is spelled. -/
theorem strings_linear {p : List ℕ} {q : ℕ} (h : walk (linear W l).ends q p = some l.length) :
    (linear W l).istring p = ((l.drop q).map Prod.fst).filter (· ≠ 0) ∧
      (linear W l).ostring p = ((l.drop q).map Prod.snd).filter (· ≠ 0) := by
  induction p generalizing q with
  | nil =>
    obtain rfl := Option.some.inj h
    simp
  | cons e p ih =>
    obtain ⟨a, ha, hwalk⟩ := VectorFst.walk_cons_arc_iff.mp h
    have harc := ha
    rw [arc?_linear] at harc
    obtain ⟨x, hx, heq⟩ := Option.map_eq_some_iff.mp harc
    obtain ⟨rfl, rfl⟩ := Prod.mk.inj heq
    have hdrop : l.drop e = x :: l.drop (e + 1) := by
      obtain ⟨hlt, hget⟩ := List.getElem?_eq_some_iff.mp hx
      rw [List.drop_eq_getElem_cons hlt, hget]
    obtain ⟨hi, ho⟩ := ih hwalk
    rw [VectorFst.istring_cons ha, VectorFst.ostring_cons ha, hdrop, hi, ho]
    constructor
    · by_cases hne : x.1 = 0 <;> simp [hne]
    · by_cases hne : x.2 = 0 <;> simp [hne]

/-- There is no choice along a linear machine. -/
theorem walk_linear_eq {p p' : List ℕ} {q : ℕ} (h : walk (linear W l).ends q p = some l.length)
    (h' : walk (linear W l).ends q p' = some l.length) : p = p' := by
  have hsource {e q r : ℕ} {p : List ℕ} (hp : walk (linear W l).ends q (e :: p) = some r) :
      e = q ∧ q < l.length ∧ walk (linear W l).ends (q + 1) p = some r := by
    obtain ⟨a, ha, hwalk⟩ := VectorFst.walk_cons_arc_iff.mp hp
    rw [arc?_linear] at ha
    obtain ⟨x, hx, heq⟩ := Option.map_eq_some_iff.mp ha
    obtain ⟨rfl, rfl⟩ := Prod.mk.inj heq
    exact ⟨rfl, (List.getElem?_eq_some_iff.mp hx).1, hwalk⟩
  induction p generalizing q p' with
  | nil =>
    obtain rfl := Option.some.inj h
    cases p' with
    | nil => rfl
    | cons e p' => exact absurd (hsource h').2.1 (Nat.lt_irrefl _)
  | cons e p ih =>
    obtain ⟨rfl, hlt, hp⟩ := hsource h
    cases p' with
    | nil => exact absurd (Option.some.inj h') hlt.ne
    | cons e' p' =>
      obtain ⟨rfl, -, hp'⟩ := hsource h'
      rw [ih hp hp']

/-- The arcs from state `q` on, in their order, lead to the end. -/
theorem walk_linear_range' {q k : ℕ} (h : q + k = l.length) :
    walk (linear W l).ends q (List.range' q k) = some l.length := by
  induction k generalizing q with
  | zero => exact congrArg some h
  | succ k ih =>
    have hlt : q < l.length := by omega
    have hrest := ih (q := q + 1) (by omega)
    refine walk_cons_iff.mpr ⟨q + 1, ?_, hrest⟩
    rw [VectorFst.ends, arc?_linear, List.getElem?_eq_getElem hlt]
    rfl

theorem exists_walk_linear {q : ℕ} (hq : q ≤ l.length) :
    ∃ p, walk (linear W l).ends q p = some l.length :=
  ⟨_, walk_linear_range' (Nat.add_sub_of_le hq)⟩

end Paths

theorem noEmpty_linear [One W] {l : List (ℤ × ℤ)} (h : ∀ x ∈ l, x.1 ≠ 0 ∧ x.2 ≠ 0) :
    NoEmpty (linear W l) := by
  have harc {e : ℕ} {p : ℕ × Arc W} (hp : (linear W l).arc? e = some p) : p.2.ilabel ≠ 0 ∧
      p.2.olabel ≠ 0 := by
    rw [arc?_linear] at hp
    obtain ⟨x, hx, rfl⟩ := Option.map_eq_some_iff.mp hp
    exact h x (List.mem_of_getElem? hx)
  constructor
  · intro e he
    obtain ⟨p, hp, h0⟩ := Option.map_eq_some_iff.mp he
    exact (harc hp).1 h0
  · intro e he
    obtain ⟨p, hp, h0⟩ := Option.map_eq_some_iff.mp he
    exact (harc hp).2 h0

/-- A linear machine has one accepting path. -/
theorem acceptsAt_linear_iff [One W] {l : List (ℤ × ℤ)} {p : List ℕ} {q : ℕ} :
    (linear W l).AcceptsAt p q ↔ p = List.range' 0 l.length ∧ q = l.length := by
  have hwalk : walk (linear W l).ends 0 (List.range' 0 l.length) = some l.length :=
    walk_linear_range' (Nat.zero_add _)
  constructor
  · rintro ⟨q₀, hs, hp, hq⟩
    obtain rfl := Option.some.inj hs
    obtain rfl : q = l.length := by
      by_contra hne
      rw [final?_linear, if_neg hne] at hq
      exact absurd hq (by simp)
    exact ⟨walk_linear_eq hp hwalk, rfl⟩
  · rintro ⟨rfl, rfl⟩
    refine ⟨0, rfl, hwalk, ?_⟩
    rw [final?_linear, if_pos rfl]
    rfl

theorem accepts_linear_eq [One W] {l : List (ℤ × ℤ)} {p p' : List ℕ} (h : (linear W l).Accepts p)
    (h' : (linear W l).Accepts p') : p = p' := by
  obtain ⟨q, hq⟩ := h
  obtain ⟨q', hq'⟩ := h'
  rw [(acceptsAt_linear_iff.mp hq).1, (acceptsAt_linear_iff.mp hq').1]

theorem weight_linear [CommMonoid W] (l : List (ℤ × ℤ)) (p : List ℕ) (q : ℕ) :
    (linear W l).weight p q = 1 := by
  apply VectorFst.weight_eq_one
  · intro e q a ha
    rw [arc?_linear] at ha
    obtain ⟨x, -, heq⟩ := Option.map_eq_some_iff.mp ha
    obtain ⟨-, rfl⟩ := Prod.mk.inj heq
    rfl
  · intro q v hv
    rw [final?_linear] at hv
    split_ifs at hv
    exact (Option.some.inj hv).symm

/-- A linear machine relates its input string to its output string. -/
theorem relates_linear [CommMonoid W] {l : List (ℤ × ℤ)} {s t : List ℤ} {w : W} :
    (linear W l).Relates s t w ↔
      s = (l.map Prod.fst).filter (· ≠ 0) ∧ t = (l.map Prod.snd).filter (· ≠ 0) ∧ w = 1 := by
  obtain ⟨hi, ho⟩ := strings_linear (walk_linear_range' (W := W) (l := l) (Nat.zero_add _))
  rw [List.drop_zero] at hi ho
  constructor
  · rintro ⟨p, q, hp, rfl, rfl, rfl⟩
    obtain ⟨rfl, rfl⟩ := acceptsAt_linear_iff.mp hp
    exact ⟨hi, ho, weight_linear l _ _⟩
  · rintro ⟨rfl, rfl, rfl⟩
    exact ⟨_, l.length, acceptsAt_linear_iff.mpr ⟨rfl, rfl⟩, hi, ho, weight_linear l _ _⟩

/-! ### The labels of the path -/

/-- Both labels of an arc. -/
def VectorFst.labels? (F : VectorFst W) (e : ℕ) : Option (ℤ × ℤ) :=
  (F.arc? e).map fun r => (r.2.ilabel, r.2.olabel)

theorem map_snd_labels? (F : VectorFst W) (p : List ℕ) :
    (p.filterMap F.labels?).map Prod.snd = p.filterMap F.olabel? := by
  rw [List.map_filterMap]
  refine List.filterMap_congr fun e _ => ?_
  rw [VectorFst.labels?, VectorFst.olabel?, Option.map_map]
  rfl

/-- The machine is built of its own states, and accepts one sequence of labels with weight one. -/
structure AcceptsOnly [CommMonoid W] (F : VectorFst W) (l : List (ℤ × ℤ)) : Prop where
  start : ∃ q, F.start = some q ∧ q < F.numStates
  target : ∀ e q a, F.arc? e = some (q, a) → a.nextstate < F.numStates
  path : ∃ p q, (∀ p' q', F.AcceptsAt p' q' ↔ p' = p ∧ q' = q) ∧ p.map F.labels? = l.map some ∧
    F.weight p q = 1

theorem acceptsOnly_linear [CommMonoid W] (l : List (ℤ × ℤ)) : AcceptsOnly (linear W l) l := by
  have hstates : (linear W l).numStates = l.length + 1 := length_chainStates _ 0 l
  refine ⟨⟨0, rfl, ?_⟩, fun e q a ha => ?_, _, l.length, fun p q => acceptsAt_linear_iff, ?_,
    weight_linear l _ _⟩
  · rw [hstates]
    exact Nat.succ_pos _
  · rw [arc?_linear] at ha
    obtain ⟨x, hx, heq⟩ := Option.map_eq_some_iff.mp ha
    obtain ⟨-, rfl⟩ := Prod.mk.inj heq
    rw [hstates]
    exact Nat.succ_lt_succ (List.getElem?_eq_some_iff.mp hx).1
  · refine List.ext_getElem (by simp) fun k hk _ => ?_
    rw [List.length_map, List.length_range'] at hk
    rw [List.getElem_map, List.getElem_range', List.getElem_map, VectorFst.labels?, arc?_linear,
      Nat.zero_add, Nat.one_mul, List.getElem?_eq_getElem hk]
    rfl

end StochasticEdit.Wfst
