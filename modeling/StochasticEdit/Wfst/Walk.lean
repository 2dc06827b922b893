import Mathlib.Data.List.Basic
import Mathlib.Tactic.Common

/-! Walks over the arcs of a directed multigraph. Arcs are named by identifiers of
an arbitrary type, so two parallel arcs with equal labels stay distinct, and a
walk is the list of the identifiers it traverses. -/

namespace StochasticEdit.Wfst

variable {Q E : Type*} [DecidableEq Q]

/-- The state reached from `q` along a list of arcs, where `ends e` is the source
and the target of the arc `e`. -/
def walk (ends : E → Option (Q × Q)) : Q → List E → Option Q
  | q, [] => some q
  | q, e :: es =>
    match ends e with
    | some (p, r) => if p = q then walk ends r es else none
    | none => none

variable {ends : E → Option (Q × Q)}

@[simp] theorem walk_nil (q : Q) : walk ends q [] = some q := rfl

theorem walk_cons_of_ends {q r : Q} {e : E} (h : ends e = some (q, r)) (es : List E) :
    walk ends q (e :: es) = walk ends r es := by
  simp [walk, h]

theorem walk_cons_iff {q q' : Q} {e : E} {es : List E} :
    walk ends q (e :: es) = some q' ↔ ∃ r, ends e = some (q, r) ∧ walk ends r es = some q' := by
  constructor
  · intro h
    unfold walk at h
    split at h
    next p r he =>
      split at h
      next hp => exact ⟨r, hp ▸ he, h⟩
      next => contradiction
    next => contradiction
  · rintro ⟨r, he, h⟩
    rw [walk_cons_of_ends he, h]

theorem walk_append (q : Q) (p p' : List E) :
    walk ends q (p ++ p') = (walk ends q p).bind fun r => walk ends r p' := by
  induction p generalizing q with
  | nil => rfl
  | cons e p ih =>
    simp only [List.cons_append, walk]
    split
    · split
      · exact ih _
      · rfl
    · rfl

theorem walk_append_iff {q q' : Q} {p p' : List E} :
    walk ends q (p ++ p') = some q' ↔ ∃ r, walk ends q p = some r ∧ walk ends r p' = some q' := by
  rw [walk_append, Option.bind_eq_some_iff]

theorem walk_append_cons_iff {q q' : Q} {p p' : List E} {e : E} :
    walk ends q (p ++ e :: p') = some q' ↔
      ∃ r s, walk ends q p = some r ∧ ends e = some (r, s) ∧ walk ends s p' = some q' := by
  rw [walk_append_iff]
  constructor
  · rintro ⟨r, hp, h⟩
    obtain ⟨s, he, hs⟩ := walk_cons_iff.mp h
    exact ⟨r, s, hp, he, hs⟩
  · rintro ⟨r, s, hp, he, hs⟩
    exact ⟨r, hp, walk_cons_iff.mpr ⟨s, he, hs⟩⟩

/-- A closed walk may be repeated. -/
theorem walk_replicate {q : Q} {p : List E} (h : walk ends q p = some q) (n : ℕ) :
    walk ends q (List.replicate n p).flatten = some q := by
  induction n with
  | zero => rfl
  | succ n ih =>
    rw [List.replicate_succ, List.flatten_cons, walk_append, h, Option.bind_some, ih]

/-- Every arc of a walk is an arc of the graph. -/
theorem ends_isSome_of_walk {q q' : Q} {p : List E} (h : walk ends q p = some q') {e : E}
    (he : e ∈ p) : (ends e).isSome := by
  obtain ⟨p₁, p₂, rfl⟩ := List.append_of_mem he
  obtain ⟨r, s, -, hs, -⟩ := walk_append_cons_iff.mp h
  simp [hs]

/-! ### Balance -/

/-- The number of arcs that lead into `r`. -/
def entrances (ends : E → Option (Q × Q)) (r : Q) (p : List E) : ℕ :=
  p.countP fun e => (ends e).map Prod.snd = some r

/-- The number of arcs that lead out of `r`. -/
def exits (ends : E → Option (Q × Q)) (r : Q) (p : List E) : ℕ :=
  p.countP fun e => (ends e).map Prod.fst = some r

/-- A walk enters a state as often as it leaves it, but for its two ends. -/
theorem entrances_add_eq {q q' : Q} {p : List E} (h : walk ends q p = some q') (r : Q) :
    entrances ends r p + (if q = r then 1 else 0) = exits ends r p + (if q' = r then 1 else 0) := by
  induction p generalizing q with
  | nil =>
    obtain rfl := Option.some.inj h
    rfl
  | cons e p ih =>
    obtain ⟨s, he, hs⟩ := walk_cons_iff.mp h
    have hrest := ih hs
    have hentry : entrances ends r (e :: p) = entrances ends r p + (if s = r then 1 else 0) := by
      unfold entrances
      simp [List.countP_cons, he]
    have hexit : exits ends r (e :: p) = exits ends r p + (if q = r then 1 else 0) := by
      unfold exits
      simp [List.countP_cons, he]
    omega

end StochasticEdit.Wfst
