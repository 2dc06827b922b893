import StochasticEdit.Wfst.ShortestDistance
import StochasticEdit.Wfst.Linear
import Mathlib.Logic.Equiv.List

/-! The relation of a transducer by sums: how much the paths that relate two strings weigh
together. A composition that has one path for every matched pair of paths adds over the
string between the two machines. -/

namespace StochasticEdit.Wfst

open scoped ENNReal

namespace VectorFst

/-- The sum of the paths that relate `s` to `t`. -/
noncomputable def mass (F : VectorFst ℝ≥0∞) (s t : List ℤ) : ℝ≥0∞ :=
  tsum fun p => if F.istring p = s ∧ F.ostring p = t then F.value p else 0

variable {F G : VectorFst ℝ≥0∞}

theorem value_eq_weight {p : List ℕ} {q : ℕ} (h : F.AcceptsAt p q) : F.value p = F.weight p q := by
  obtain ⟨w, hw⟩ := Option.isSome_iff_exists.mp h.choose_spec.2.2
  rw [value_of_acceptsAt h, weight, finalWeight, finalAt, Option.bind_some, hw]
  rfl

/-- Every path relates one pair of strings. -/
theorem tsum_mass : (tsum fun s => tsum fun t => F.mass s t) = F.shortestDistance := by
  have hpath (p : List ℕ) : (tsum fun s => tsum fun t =>
      if F.istring p = s ∧ F.ostring p = t then F.value p else 0) = F.value p := by
    rw [tsum_eq_single (F.istring p), tsum_eq_single (F.ostring p)]
    · rw [if_pos ⟨rfl, rfl⟩]
    · exact fun t ht => if_neg fun h => ht h.2.symm
    · intro s hs
      simp only [show ¬ F.istring p = s from fun h => hs h.symm, false_and, if_false, tsum_zero]
  calc (tsum fun s => tsum fun t => F.mass s t)
      = tsum fun s => tsum fun p => tsum fun t =>
          if F.istring p = s ∧ F.ostring p = t then F.value p else 0 := tsum_congr fun s =>
            ENNReal.tsum_comm
    _ = tsum fun p => tsum fun s => tsum fun t =>
          if F.istring p = s ∧ F.ostring p = t then F.value p else 0 := ENNReal.tsum_comm
    _ = F.shortestDistance := tsum_congr hpath

/-- The sum of the paths that write `t`. -/
noncomputable def outputMass (F : VectorFst ℝ≥0∞) (t : List ℤ) : ℝ≥0∞ := tsum fun s => F.mass s t

theorem outputMass_eq (t : List ℤ) :
    F.outputMass t = tsum fun p => if F.ostring p = t then F.value p else 0 := by
  have hpath (p : List ℕ) :
      (tsum fun s => if F.istring p = s ∧ F.ostring p = t then F.value p else 0) =
      if F.ostring p = t then F.value p else 0 := by
    rw [tsum_eq_single (F.istring p)]
    · simp only [true_and]
    · exact fun s hs => if_neg fun h => hs h.1.symm
  rw [outputMass, ← tsum_congr hpath]
  exact ENNReal.tsum_comm

theorem tsum_outputMass : tsum F.outputMass = F.shortestDistance := by
  rw [← tsum_mass, ENNReal.tsum_comm]
  rfl

/-- Averages over the strings are averages over the paths. -/
theorem tsum_outputMass_mul (f : List ℤ → ℝ≥0∞) :
    (tsum fun t => F.outputMass t * f t) = tsum fun p => F.value p * f (F.ostring p) := by
  have hpath (p : List ℕ) : (tsum fun t => (if F.ostring p = t then F.value p else 0) * f t) =
      F.value p * f (F.ostring p) := by
    rw [tsum_eq_single (F.ostring p)]
    · rw [if_pos rfl]
    · exact fun t ht => by rw [if_neg fun h => ht h.symm, zero_mul]
  simp only [outputMass_eq, ← ENNReal.tsum_mul_right]
  rw [ENNReal.tsum_comm]
  exact tsum_congr hpath

/-! ### Composition -/

section Compose
variable {comp : Composer}

/-- The machines `F` and `G` are composed exactly. -/
abbrev Exact (comp : Composer) (F G : VectorFst ℝ≥0∞) : Prop :=
  IsExact F.shape G.shape (comp F.shape G.shape)

/-- The matched pairs of paths, by the strings they relate. -/
noncomputable def pairMass (F G : VectorFst ℝ≥0∞) (s t : List ℤ) (p : List ℕ × List ℕ) : ℝ≥0∞ :=
  if F.istring p.1 = s ∧ G.ostring p.2 = t ∧ F.ostring p.1 = G.istring p.2 then
    F.value p.1 * G.value p.2 else 0

theorem tsum_pairMass (s t : List ℤ) :
    tsum (pairMass F G s t) = tsum fun u => F.mass s u * G.mass u t := by
  have hpair (p₁ p₂ : List ℕ) :
      (tsum fun u => (if F.istring p₁ = s ∧ F.ostring p₁ = u then F.value p₁ else 0) *
      if G.istring p₂ = u ∧ G.ostring p₂ = t then G.value p₂ else 0) =
        pairMass F G s t (p₁, p₂) := by
    rw [tsum_eq_single (F.ostring p₁)]
    · rw [pairMass, ite_zero_mul_ite_zero]
      refine if_congr ?_ rfl rfl
      constructor
      · rintro ⟨⟨hs, -⟩, hu, ht⟩
        exact ⟨hs, ht, hu.symm⟩
      · rintro ⟨hs, ht, hu⟩
        exact ⟨⟨hs, rfl⟩, hu.symm, ht⟩
    · intro u hu
      rw [if_neg fun h => hu h.2.symm, zero_mul]
  calc tsum (pairMass F G s t)
      = tsum fun p₁ => tsum fun p₂ => pairMass F G s t (p₁, p₂) := ENNReal.tsum_prod'
    _ = tsum fun p₁ => tsum fun p₂ => tsum fun u =>
          (if F.istring p₁ = s ∧ F.ostring p₁ = u then F.value p₁ else 0) *
            if G.istring p₂ = u ∧ G.ostring p₂ = t then G.value p₂ else 0 := by simp only [hpair]
    _ = tsum fun p₁ => tsum fun u => tsum fun p₂ =>
          (if F.istring p₁ = s ∧ F.ostring p₁ = u then F.value p₁ else 0) *
            if G.istring p₂ = u ∧ G.ostring p₂ = t then G.value p₂ else 0 :=
        tsum_congr fun p₁ => ENNReal.tsum_comm
    _ = tsum fun u => tsum fun p₁ => tsum fun p₂ =>
          (if F.istring p₁ = s ∧ F.ostring p₁ = u then F.value p₁ else 0) *
            if G.istring p₂ = u ∧ G.ostring p₂ = t then G.value p₂ else 0 := ENNReal.tsum_comm
    _ = tsum fun u => F.mass s u * G.mass u t := by
        simp only [ENNReal.tsum_mul_left, ENNReal.tsum_mul_right]
        rfl

/-- A path of a composition is a matched pair of paths. -/
theorem term_compose (h : Exact comp F G) {p : List ℕ} (hp : (comp F.shape G.shape).Accepts p)
    (s t : List ℤ) :
    (if (VectorFst.compose comp F G).istring p = s ∧ (VectorFst.compose comp F G).ostring p = t then
      (VectorFst.compose comp F G).value p else 0) =
      pairMass F G s t ((comp F.shape G.shape).leftPath p, (comp F.shape G.shape).rightPath p) := by
  obtain ⟨q, hq⟩ := hp
  obtain ⟨o, ho⟩ := Option.isSome_iff_exists.mp hq.choose_spec.2.2
  obtain ⟨q₁, q₂, rfl⟩ := h.final q o ho
  obtain ⟨h₁, h₂⟩ := h.sound p q q₁ q₂ hq ho
  have harcs : ∀ e ∈ p, ∃ r a, (comp F.shape G.shape).arc? e = some (r, a) :=
    fun e he => exists_arc_of_mem hq he
  have hin : (VectorFst.compose comp F G).istring p =
      F.istring ((comp F.shape G.shape).leftPath p) := by
    rw [VectorFst.compose, istring_map, ← istring_leftPath h.matched harcs]
    exact istring_map _ _ F _
  have hout : (VectorFst.compose comp F G).ostring p =
      G.ostring ((comp F.shape G.shape).rightPath p) := by
    rw [VectorFst.compose, ostring_map, ← ostring_rightPath h.matched harcs]
    exact ostring_map _ _ G _
  have hshared : F.ostring ((comp F.shape G.shape).leftPath p) =
      G.istring ((comp F.shape G.shape).rightPath p) := by
    have hboth := ostring_leftPath h.matched harcs
    rwa [shape, shape, istring_map, ostring_map] at hboth
  have hacc : (VectorFst.compose comp F G).AcceptsAt p q := (acceptsAt_map _ _ _).mpr hq
  have hvalue : (VectorFst.compose comp F G).value p =
      F.value ((comp F.shape G.shape).leftPath p) *
        G.value ((comp F.shape G.shape).rightPath p) := by
    rw [value_eq_weight hacc, weight_compose hq ho,
      value_eq_weight ((acceptsAt_map _ _ F).mp h₁), value_eq_weight ((acceptsAt_map _ _ G).mp h₂)]
  rw [pairMass, hin, hout, hvalue]
  refine if_congr ?_ rfl rfl
  constructor
  · exact fun hst => ⟨hst.1, hst.2, hshared⟩
  · exact fun hst => ⟨hst.1, hst.2.1⟩

/-- The sum over the string between the two machines. -/
theorem mass_compose (h : Exact comp F G) (s t : List ℤ) :
    (VectorFst.compose comp F G).mass s t = tsum fun u => F.mass s u * G.mass u t := by
  let C := comp F.shape G.shape
  let pair (p : {p | C.Accepts p}) : List ℕ × List ℕ := (C.leftPath p, C.rightPath p)
  have hinj : Function.Injective pair := by
    intro p p' hpp
    obtain ⟨hleft, hright⟩ := Prod.mk.inj hpp
    exact Subtype.ext (h.unique p p' p.2 p'.2 hleft hright)
  have hsupport : Function.support (pairMass F G s t) ⊆ Set.range pair := by
    rintro ⟨p₁, p₂⟩ hne
    rw [Function.mem_support, pairMass] at hne
    obtain ⟨⟨-, -, hshared⟩, hne⟩ := ite_ne_right_iff.mp hne
    obtain ⟨⟨q₁, hq₁⟩, q₂, hq₂⟩ : F.Accepts p₁ ∧ G.Accepts p₂ := by
      constructor
      · by_contra hno
        exact hne (by rw [value_eq_zero hno, zero_mul])
      · by_contra hno
        exact hne (by rw [value_eq_zero hno, mul_zero])
    obtain ⟨p, q, hp, -, hleft, hright⟩ := h.complete p₁ p₂ q₁ q₂ ((acceptsAt_map _ _ F).mpr hq₁)
      ((acceptsAt_map _ _ G).mpr hq₂)
        (by rw [shape, shape, istring_map, ostring_map]; exact hshared)
    exact ⟨⟨p, q, hp⟩, Prod.ext hleft hright⟩
  rw [← tsum_pairMass, ← hinj.tsum_eq hsupport, mass]
  rw [← tsum_subtype_eq_of_support_subset (s := {p | C.Accepts p})]
  · exact tsum_congr fun p => term_compose h p.2 s t
  · intro p hp
    rw [Function.mem_support] at hp
    by_contra hno
    refine hp ?_
    have hvalue : (VectorFst.compose comp F G).value p = 0 :=
      value_eq_zero fun hacc => hno ((accepts_map _ _ _).mp hacc)
    rw [hvalue, ite_self]

end Compose

/-! ### Other orders of the arcs -/

/-- The machine `G` has the arcs of `F` under other numbers. -/
theorem mass_eq_of_arcs {σ : ℕ ≃ ℕ} (hstart : G.start = F.start)
    (hfinal : ∀ q, G.final? q = F.final? q) (harc : ∀ e, G.arc? (σ e) = F.arc? e) (s t : List ℤ) :
    G.mass s t = F.mass s t := by
  have hwalk (p : List ℕ) : ∀ q, walk G.ends q (p.map σ) = walk F.ends q p := by
    induction p with
    | nil => exact fun _ => rfl
    | cons e p ih =>
      intro q
      have hends : G.ends (σ e) = F.ends e := by rw [ends, ends, harc]
      simp only [List.map_cons, walk, hends, ih]
  have hweight (p : List ℕ) : pathWeight G.arcWeight (p.map σ) = pathWeight F.arcWeight p := by
    rw [pathWeight, pathWeight, List.map_map]
    refine congrArg List.prod (List.map_congr_left fun e _ => ?_)
    show G.weightAt (some (σ e)) = F.weightAt (some e)
    rw [weightAt, weightAt, Option.bind_some, Option.bind_some, harc]
  have hlabels (p : List ℕ) : G.istring (p.map σ) = F.istring p ∧
      G.ostring (p.map σ) = F.ostring p := by
    simp only [istring, ostring, List.filterMap_map, ilabel?, olabel?, Function.comp_def, harc]
    exact ⟨rfl, rfl⟩
  have hvalue (p : List ℕ) : G.value (p.map σ) = F.value p := by
    have hfin : G.finalWeight = F.finalWeight := by
      funext q
      rw [finalWeight, finalWeight, hfinal]
    rw [value, value, hstart]
    simp only [pathValue, hwalk, hweight, hfin]
  rw [mass, mass, ← (Equiv.listEquivOfEquiv σ).tsum_eq]
  refine tsum_congr fun p => ?_
  show (if G.istring (p.map σ) = s ∧ G.ostring (p.map σ) = t then G.value (p.map σ) else 0) = _
  rw [(hlabels p).1, (hlabels p).2, hvalue]

/-- The states of `F`, each with its arcs in another order. -/
structure SameArcs {W : Type*} (F G : VectorFst W) : Prop where
  start : G.start = F.start
  states : List.Forall₂ (fun s t : State W => t.final = s.final ∧ t.arcs.Perm s.arcs)
    F.states G.states

theorem exists_index_of_perm {α : Type*} {l l' : List α} (h : l'.Perm l) :
    ∃ σ : ℕ ≃ ℕ, ∀ e, l'[σ e]? = l[e]? := by
  induction h with
  | nil => exact ⟨Equiv.refl ℕ, fun _ => rfl⟩
  | cons x _ ih =>
    obtain ⟨σ, hσ⟩ := ih
    refine ⟨⟨Nat.rec 0 fun n _ => σ n + 1, Nat.rec 0 fun n _ => σ.symm n + 1, ?_, ?_⟩, ?_⟩
    · rintro (_ | n)
      · rfl
      · exact congrArg Nat.succ (σ.symm_apply_apply n)
    · rintro (_ | n)
      · rfl
      · exact congrArg Nat.succ (σ.apply_symm_apply n)
    · rintro (_ | n)
      · rfl
      · exact hσ n
  | swap x y l =>
    refine ⟨Equiv.swap 0 1, ?_⟩
    rintro (_ | _ | n)
    · rw [Equiv.swap_apply_left]
      rfl
    · rw [Equiv.swap_apply_right]
      rfl
    · rw [Equiv.swap_apply_of_ne_of_ne (Nat.succ_ne_zero _) (by omega)]
      rfl
  | trans _ _ ih ih' =>
    obtain ⟨σ, hσ⟩ := ih
    obtain ⟨σ', hσ'⟩ := ih'
    exact ⟨σ'.trans σ, fun e => (hσ (σ' e)).trans (hσ' e)⟩

theorem perm_arcsFrom {W : Type*} {ss ss' : List (State W)} (i : ℕ)
    (h : List.Forall₂ (fun s t : State W => t.final = s.final ∧ t.arcs.Perm s.arcs) ss ss') :
    (arcsFrom i ss').Perm (arcsFrom i ss) := by
  induction h generalizing i with
  | nil => exact .nil
  | cons hs _ ih => exact (hs.2.map _).append (ih (i + 1))

theorem SameArcs.exists_index {W : Type*} {F G : VectorFst W} (h : SameArcs F G) :
    ∃ σ : ℕ ≃ ℕ, ∀ e, G.arc? (σ e) = F.arc? e :=
  exists_index_of_perm (perm_arcsFrom 0 h.states)

theorem SameArcs.noEmpty {W : Type*} {F G : VectorFst W} (h : SameArcs F G) (hF : NoEmpty F) :
    NoEmpty G := by
  obtain ⟨σ, hσ⟩ := h.exists_index
  constructor
  · intro e
    rw [ilabel?, ← σ.apply_symm_apply e, hσ]
    exact hF.ilabel _
  · intro e
    rw [olabel?, ← σ.apply_symm_apply e, hσ]
    exact hF.olabel _

theorem mass_sameArcs (h : SameArcs F G) (s t : List ℤ) : G.mass s t = F.mass s t := by
  obtain ⟨σ, hσ⟩ := h.exists_index
  refine mass_eq_of_arcs h.start (fun q => ?_) hσ s t
  rw [final?, final?]
  have hlen := h.states.length_eq
  rcases hq : F.states[q]? with _ | u
  · rw [List.getElem?_eq_none (by rw [← hlen]; exact List.getElem?_eq_none_iff.mp hq)]
  · obtain ⟨hlt, rfl⟩ := List.getElem?_eq_some_iff.mp hq
    have hfin := (List.forall₂_iff_get.mp h.states).2 q hlt (hlen ▸ hlt)
    rw [List.getElem?_eq_getElem (hlen ▸ hlt)]
    exact hfin.1

/-! ### Linear machines -/

theorem mass_linear (l : List (ℤ × ℤ)) (s t : List ℤ) : (linear ℝ≥0∞ l).mass s t =
    if s = (l.map Prod.fst).filter (· ≠ 0) ∧ t = (l.map Prod.snd).filter (· ≠ 0) then 1 else 0 := by
  obtain ⟨p, hp⟩ := exists_walk_linear (W := ℝ≥0∞) (l := l) (Nat.zero_le _)
  have hfinal : (linear ℝ≥0∞ l).final? l.length = some 1 := by rw [final?_linear, if_pos rfl]
  have haccepts : (linear ℝ≥0∞ l).AcceptsAt p l.length := ⟨0, rfl, hp, by rw [hfinal]; rfl⟩
  rw [mass, tsum_eq_single p]
  · obtain ⟨hin, hout⟩ := strings_linear hp
    rw [hin, hout, value_eq_weight haccepts, weight_linear, List.drop_zero]
    exact if_congr (and_congr eq_comm eq_comm) rfl rfl
  · intro p' hne
    have hvalue : (linear ℝ≥0∞ l).value p' = 0 :=
      value_eq_zero fun hacc => hne (accepts_linear_eq hacc ⟨_, haccepts⟩)
    rw [hvalue, ite_self]

/-! ### Machines with one state -/

/-- The sum of the paths that relate `s` to `t` once `u` and `v` are put in front. -/
noncomputable def massAfter (F : VectorFst ℝ≥0∞) (u v s t : List ℤ) : ℝ≥0∞ :=
  tsum fun p => if u ++ F.istring p = s ∧ v ++ F.ostring p = t then F.value p else 0

theorem massAfter_append (u v s t : List ℤ) : F.massAfter u v (u ++ s) (v ++ t) = F.mass s t := by
  simp only [massAfter, mass, List.append_cancel_left_eq]

theorem massAfter_eq_zero {u v s t : List ℤ} (h : ¬ (u <+: s ∧ v <+: t)) :
    F.massAfter u v s t = 0 := by
  refine ENNReal.tsum_eq_zero.mpr fun p => if_neg ?_
  rintro ⟨hs, ht⟩
  exact h ⟨⟨_, hs⟩, ⟨_, ht⟩⟩

theorem massAfter_left (x y : ℤ) (s t : List ℤ) :
    F.massAfter [y] [] (x :: s) t = if y = x then F.mass s t else 0 := by
  split_ifs with h
  · rw [h]
    exact massAfter_append [x] [] s t
  · exact massAfter_eq_zero fun hp => h (List.cons_prefix_cons.mp hp.1).1

theorem massAfter_right (x y : ℤ) (s t : List ℤ) :
    F.massAfter [] [y] s (x :: t) = if y = x then F.mass s t else 0 := by
  split_ifs with h
  · rw [h]
    exact massAfter_append [] [x] s t
  · exact massAfter_eq_zero fun hp => h (List.cons_prefix_cons.mp hp.2).1

theorem massAfter_both (x x' y y' : ℤ) (s t : List ℤ) :
    F.massAfter [y] [y'] (x :: s) (x' :: t) = if y = x ∧ y' = x' then F.mass s t else 0 := by
  split_ifs with h
  · rw [h.1, h.2]
    exact massAfter_append [x] [x'] s t
  · exact massAfter_eq_zero fun hp =>
      h ⟨(List.cons_prefix_cons.mp hp.1).1, (List.cons_prefix_cons.mp hp.2).1⟩

theorem massAfter_left_nil (y : ℤ) (v t : List ℤ) : F.massAfter [y] v [] t = 0 :=
  massAfter_eq_zero fun hp => List.cons_ne_nil _ _ (List.prefix_nil.mp hp.1)

theorem massAfter_right_nil (y : ℤ) (u s : List ℤ) : F.massAfter u [y] s [] = 0 :=
  massAfter_eq_zero fun hp => List.cons_ne_nil _ _ (List.prefix_nil.mp hp.2)

theorem tsum_getElem? {α : Type*} (l : List α) (g : α → ℝ≥0∞) :
    (tsum fun e : ℕ => l[e]?.elim 0 g) = (l.map g).sum := by
  induction l with
  | nil => simp
  | cons a l ih =>
    rw [tsum_eq_zero_add' ENNReal.summable, List.map_cons, List.sum_cons, ← ih]
    rfl

/-- A machine with one state reads its string arc by arc. -/
theorem mass_loops {arcs : List (Arc ℝ≥0∞)} (hF : F = ⟨some 0, [⟨some 1, arcs⟩]⟩)
    (hnext : ∀ a ∈ arcs, a.nextstate = 0) (s t : List ℤ) : F.mass s t =
      (if s = [] ∧ t = [] then 1 else 0) +
        (arcs.map fun a => a.weight * F.massAfter (word a.ilabel) (word a.olabel) s t).sum := by
  have harc (e : ℕ) : F.arc? e = arcs[e]?.map fun a => (0, a) := by
    rw [hF, arc?, arcsFrom, arcsFrom, List.append_nil, List.getElem?_map]
  have hstart : F.start = some 0 := by rw [hF]
  have hvalue : F.value = pathValue F.ends F.arcWeight F.finalWeight 0 := value_eq_pathValue hstart
  have hnil : F.value [] = 1 := by
    rw [hvalue, pathValue_of_walk (walk_nil 0), pathWeight_nil, one_mul, hF]
    rfl
  have hcons (e : ℕ) : (tsum fun p => if F.istring (e :: p) = s ∧ F.ostring (e :: p) = t then
      F.value (e :: p) else 0) =
        arcs[e]?.elim 0 fun a => a.weight * F.massAfter (word a.ilabel) (word a.olabel) s t := by
    rcases ha : arcs[e]? with _ | a
    · have hno : F.ends e = none := by rw [ends, harc, ha]; rfl
      refine ENNReal.tsum_eq_zero.mpr fun p => ?_
      have hzero : F.value (e :: p) = 0 := by
        rw [hvalue]
        apply pathValue_eq_zero
        rw [walk, hno]
      rw [hzero, ite_self]
    · have hsome : F.arc? e = some (0, a) := by rw [harc, ha]; rfl
      have hends : F.ends e = some (0, 0) :=
        ends_eq_some_iff.mpr ⟨a, hsome, hnext a (List.mem_of_getElem? ha)⟩
      rw [Option.elim_some, massAfter, ← ENNReal.tsum_mul_left]
      refine tsum_congr fun p => ?_
      have hstep : F.value (e :: p) = a.weight * F.value p := by
        have happend := @pathValue_append_cons _ _ _ F.ends F.arcWeight F.finalWeight
          _ _ _ hends 0 [] p
        rw [walk_nil, if_pos rfl, pathWeight_nil, one_mul, arcWeight_eq hsome, ← hvalue] at happend
        exact happend
      rw [istring_cons hsome, ostring_cons hsome, hstep, mul_ite, mul_zero]
      rfl
  rw [mass, tsum_list, tsum_congr hcons, tsum_getElem?, istring_nil, ostring_nil, hnil]
  exact congrArg (· + _) (if_congr (and_congr eq_comm eq_comm) rfl rfl)

end VectorFst

end StochasticEdit.Wfst
