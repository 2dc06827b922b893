import StochasticEdit.Wfst.Linear
import StochasticEdit.Wfst.Product
import Mathlib.Data.Set.Finite.List

/-! Machines without cycles. A composition moves in pairs of states, so a cycle of it is a
cycle of either machine. Between two acyclic machines a third one can only go around on the
empty word, which a potential that falls on such arcs rules out. -/

namespace StochasticEdit.Wfst

variable {W V : Type*}

namespace VectorFst

/-- No path leads back to where it starts. -/
def Acyclic (F : VectorFst W) : Prop := ∀ q p, walk F.ends q p = some q → p = []

/-- No path that reads and writes nothing leads back to where it starts. -/
def NoEmptyCycle (F : VectorFst W) : Prop :=
  ∀ q p, walk F.ends q p = some q → F.istring p = [] → F.ostring p = [] → p = []

/-! ### Potentials -/

/-- Along arcs that read and write nothing, the potential bounds how far one can go. -/
theorem length_le_of_potential {F : VectorFst W} {φ : ℕ → ℕ}
    (hφ : ∀ e q a, F.arc? e = some (q, a) → a.ilabel = 0 → a.olabel = 0 → φ a.nextstate < φ q)
    {p : List ℕ} {q r : ℕ} (h : walk F.ends q p = some r) (hi : F.istring p = [])
    (ho : F.ostring p = []) : p.length + φ r ≤ φ q := by
  induction p generalizing q with
  | nil =>
    obtain rfl := Option.some.inj h
    simp
  | cons e p ih =>
    obtain ⟨a, ha, hwalk⟩ := walk_cons_arc_iff.mp h
    rw [istring_cons ha, List.append_eq_nil_iff] at hi
    rw [ostring_cons ha, List.append_eq_nil_iff] at ho
    have hil : a.ilabel = 0 := by
      by_contra hne
      rw [if_neg hne] at hi
      exact absurd hi.1 (List.cons_ne_nil _ _)
    have hol : a.olabel = 0 := by
      by_contra hne
      rw [if_neg hne] at ho
      exact absurd ho.1 (List.cons_ne_nil _ _)
    have hrest := ih hwalk hi.2 ho.2
    have hstep := hφ e q a ha hil hol
    rw [List.length_cons]
    omega

theorem noEmptyCycle_of_potential {F : VectorFst W} (φ : ℕ → ℕ)
    (hφ : ∀ e q a, F.arc? e = some (q, a) → a.ilabel = 0 → a.olabel = 0 → φ a.nextstate < φ q) :
    F.NoEmptyCycle := by
  intro q p h hi ho
  have hle := length_le_of_potential hφ h hi ho
  exact List.length_eq_zero_iff.mp (by omega)

/-! ### Finitely many paths -/

/-- Without cycles no arc is used twice. -/
theorem Acyclic.nodup {F : VectorFst W} (h : F.Acyclic) {p : List ℕ} {q r : ℕ}
    (hp : walk F.ends q p = some r) : p.Nodup := by
  induction p generalizing q with
  | nil => exact List.nodup_nil
  | cons e p ih =>
    obtain ⟨s, he, hwalk⟩ := walk_cons_iff.mp hp
    refine List.nodup_cons.mpr ⟨fun hmem => ?_, ih hwalk⟩
    obtain ⟨p₁, p₂, rfl⟩ := List.append_of_mem hmem
    obtain ⟨q', s', hp₁, he', -⟩ := walk_append_cons_iff.mp hwalk
    obtain rfl : q = q' := (Prod.mk.inj (Option.some.inj (he.symm.trans he'))).1
    exact absurd (h q (e :: p₁) (walk_cons_iff.mpr ⟨s, he, hp₁⟩)) (List.cons_ne_nil e p₁)

theorem Acyclic.finite_accepts {F : VectorFst W} (h : F.Acyclic) : {p | F.Accepts p}.Finite := by
  refine ((List.finite_length_le (Fin F.numArcs) F.numArcs).image (List.map Fin.val)).subset ?_
  rintro p ⟨r, q, -, hwalk, -⟩
  have hlt : ∀ e ∈ p, e < F.numArcs := fun e he => by
    obtain ⟨s, a, ha⟩ := exists_arc_of_walk hwalk he
    exact lt_numArcs_of_arc? ha
  have hnodup := h.nodup hwalk
  lift p to List (Fin F.numArcs) using hlt
  refine ⟨p, ?_, rfl⟩
  have hcard := (List.Nodup.of_map _ hnodup).length_le_card
  rwa [Fintype.card_fin] at hcard

end VectorFst

open VectorFst

/-- Each step along a linear machine leads to the next state. -/
theorem acyclic_linear [One W] (l : List (ℤ × ℤ)) : (linear W l).Acyclic := by
  have hstep {p : List ℕ} {q r : ℕ} (h : walk (linear W l).ends q p = some r) :
      q + p.length = r := by
    induction p generalizing q with
    | nil => exact Option.some.inj h
    | cons e p ih =>
      obtain ⟨a, ha, hwalk⟩ := walk_cons_arc_iff.mp h
      rw [arc?_linear] at ha
      obtain ⟨x, -, heq⟩ := Option.map_eq_some_iff.mp ha
      obtain ⟨rfl, rfl⟩ := Prod.mk.inj heq
      have hnext : e + 1 + p.length = r := ih hwalk
      rw [List.length_cons]
      omega
  intro q p h
  have hlen := hstep h
  exact List.length_eq_zero_iff.mp (by omega)

/-! ### Compositions -/

/-- A machine moves along its arc, or stands still. -/
def SideMove (F : VectorFst Unit) (e : Option ℕ) (q r : ℕ) : Prop :=
  e.elim (q = r) fun e => F.ends e = some (q, r)

/-- The arcs of a composition, as documented: they are matched, and each of them moves a pair
of states of the two machines. -/
structure MovesPairs (F G : VectorFst Unit) (C : VectorFst Origin) : Prop where
  matched : ∀ e q a, C.arc? e = some (q, a) → Matched F G a
  pairs : ∃ π : ℕ → ℕ × ℕ, ∀ e q a, C.arc? e = some (q, a) →
    SideMove F a.weight.1 (π q).1 (π a.nextstate).1 ∧
      SideMove G a.weight.2 (π q).2 (π a.nextstate).2

theorem walk_sideMove {F : VectorFst Unit} {e : Option ℕ} {q r s : ℕ} {p : List ℕ}
    (he : SideMove F e q r) (hp : walk F.ends r p = some s) :
    walk F.ends q (e.toList ++ p) = some s := by
  cases e with
  | none => exact (show q = r from he) ▸ hp
  | some e => exact walk_cons_iff.mpr ⟨r, he, hp⟩

section Composition
variable {F G : VectorFst Unit} {C : VectorFst Origin}

/-- A path of a composition goes along a path of either machine. -/
theorem MovesPairs.exists_walks (h : MovesPairs F G C) :
    ∃ π : ℕ → ℕ × ℕ, ∀ p q r, walk C.ends q p = some r →
    walk F.ends (π q).1 (C.leftPath p) = some (π r).1 ∧ walk G.ends (π q).2 (C.rightPath p) =
      some (π r).2 := by
  obtain ⟨π, hπ⟩ := h.pairs
  refine ⟨π, fun p => ?_⟩
  induction p with
  | nil =>
    intro q r h
    obtain rfl := Option.some.inj h
    exact ⟨rfl, rfl⟩
  | cons e p ih =>
    intro q r h
    obtain ⟨a, ha, hwalk⟩ := walk_cons_arc_iff.mp h
    obtain ⟨hleft, hright⟩ := ih _ _ hwalk
    obtain ⟨hl, hr⟩ := hπ e q a ha
    rw [leftPath_cons ha, rightPath_cons ha]
    exact ⟨walk_sideMove hl hleft, walk_sideMove hr hright⟩

/-- Only the empty path moves neither machine. -/
theorem MovesPairs.eq_nil (h : MovesPairs F G C) {p : List ℕ} {q r : ℕ}
    (hp : walk C.ends q p = some r) (hleft : C.leftPath p = []) (hright : C.rightPath p = []) :
    p = [] := by
  cases p with
  | nil => rfl
  | cons e p =>
    obtain ⟨a, ha, -⟩ := walk_cons_arc_iff.mp hp
    rw [leftPath_cons ha, List.append_eq_nil_iff, Option.toList_eq_nil_iff] at hleft
    rw [rightPath_cons ha, List.append_eq_nil_iff, Option.toList_eq_nil_iff] at hright
    exact absurd (Prod.ext hleft.1 hright.1) (h.matched e q a ha).moves

end Composition

theorem ends_shape (F : VectorFst W) : F.shape.ends = F.ends := ends_map_eq ..

theorem VectorFst.NoEmptyCycle.of_shape_eq {F : VectorFst W} {G : VectorFst V} (h : F.NoEmptyCycle)
    (heq : G.shape = F.shape) : G.NoEmptyCycle := by
  intro q p hp hi ho
  rw [← ends_shape, heq, ends_shape] at hp
  rw [← VectorFst.istring_shape, heq, VectorFst.istring_shape] at hi
  rw [← VectorFst.ostring_shape, heq, VectorFst.ostring_shape] at ho
  exact h q p hp hi ho

/-- A cycle of a composition is made of cycles of both machines with the same string on the
shared tape. -/
theorem MovesPairs.exists_cycles [One W] [Mul W] {comp : Composer} {F G : VectorFst W}
    (h : MovesPairs F.shape G.shape (comp F.shape G.shape)) {p : List ℕ} {q : ℕ}
    (hp : walk (VectorFst.compose comp F G).ends q p = some q) : ∃ p₁ p₂ q₁ q₂,
      walk F.ends q₁ p₁ = some q₁ ∧ walk G.ends q₂ p₂ = some q₂ ∧ F.ostring p₁ = G.istring p₂ ∧
      (VectorFst.compose comp F G).ostring p = G.ostring p₂ ∧ (p₁ = [] → p₂ = [] → p = []) := by
  have hwalk : walk (comp F.shape G.shape).ends q p = some q := by
    rwa [VectorFst.compose, ends_map_eq] at hp
  have harcs : ∀ e ∈ p, ∃ s a, (comp F.shape G.shape).arc? e = some (s, a) := fun e he =>
    exists_arc_of_walk hwalk he
  obtain ⟨π, hπ⟩ := h.exists_walks
  obtain ⟨hleft, hright⟩ := hπ p q q hwalk
  have hshared := ostring_leftPath h.matched harcs
  have hwrites := ostring_rightPath h.matched harcs
  rw [ends_shape] at hleft hright
  rw [VectorFst.ostring_shape, VectorFst.istring_shape] at hshared
  rw [VectorFst.ostring_shape] at hwrites
  refine ⟨_, _, _, _, hleft, hright, hshared, ?_, h.eq_nil hwalk⟩
  rw [VectorFst.compose, ostring_map, hwrites]

/-- Between two acyclic machines, one without empty cycles leaves no cycle. -/
theorem acyclic_compose [One W] [Mul W] {comp : Composer} {X F Y : VectorFst W} (hX : X.Acyclic)
    (hF : F.NoEmptyCycle) (hY : Y.Acyclic)
    (hmedial : MovesPairs X.shape F.shape (comp X.shape F.shape))
    (hfinal : MovesPairs (VectorFst.compose comp X F).shape Y.shape
      (comp (VectorFst.compose comp X F).shape Y.shape)) :
    (VectorFst.compose comp (VectorFst.compose comp X F) Y).Acyclic := by
  intro q p hp
  obtain ⟨p₁, p₂, q₁, q₂, hp₁, hp₂, hshared, -, hnil⟩ := hfinal.exists_cycles hp
  obtain rfl := hY q₂ p₂ hp₂
  refine hnil ?_ rfl
  -- the cycle through `F` reads what the empty path of `X` writes, and writes what `Y` reads
  obtain ⟨x, f, r₁, r₂, hx, hf, hread, hwrite, hnil₁⟩ := hmedial.exists_cycles hp₁
  obtain rfl := hX r₁ x hx
  exact hnil₁ rfl (hF r₂ f hf hread.symm (hwrite.symm.trans hshared))

/-- The product moves in pairs of states. -/
theorem movesPairs_product (F G : VectorFst Unit) : MovesPairs F G (product F G) where
  matched := fun _ _ _ h => matched_product h
  pairs := by
    refine ⟨fun n => (n / G.numStates, n % G.numStates), fun e n c hc => ?_⟩
    obtain ⟨i, j, hi, hj, rfl, hmem⟩ := arc?_product hc
    simp only [pairState_div hj, pairState_mod hj]
    rcases mem_productArcs.mp hmem with ⟨f, a, ha, ⟨-, hlt⟩, rfl⟩ | ⟨g, b, hb, ⟨-, hlt⟩, rfl⟩ |
      ⟨f, a, g, b, ha, hb, ⟨-, -, hlt, hlt'⟩, rfl⟩
    · rw [pairState_div hj, pairState_mod hj]
      exact ⟨ends_eq_some_iff.mpr ⟨a, ha, rfl⟩, rfl⟩
    · rw [pairState_div hlt, pairState_mod hlt]
      exact ⟨rfl, ends_eq_some_iff.mpr ⟨b, hb, rfl⟩⟩
    · rw [pairState_div hlt', pairState_mod hlt']
      exact ⟨ends_eq_some_iff.mpr ⟨a, ha, rfl⟩, ends_eq_some_iff.mpr ⟨b, hb, rfl⟩⟩

end StochasticEdit.Wfst
