import StochasticEdit.Wfst.Compose

/-! The weighted relation of a transducer: which input string it relates to which output
string, by an accepting path of which weight. Composition of transducers is composition
of these relations. -/

namespace StochasticEdit.Wfst

namespace VectorFst

variable {W V : Type*} [CommMonoid W]

/-- The weight of an accepting path that ends in the state `q`. -/
def weight (F : VectorFst W) (p : List ℕ) (q : ℕ) : W :=
  (p.map fun e => F.weightAt (some e)).prod * F.finalAt (some q)

/-- An accepting path relates the string `s` to the string `t` with the weight `w`. -/
def Relates (F : VectorFst W) (s t : List ℤ) (w : W) : Prop :=
  ∃ p q, F.AcceptsAt p q ∧ F.istring p = s ∧ F.ostring p = t ∧ F.weight p q = w

/-- A machine whose weights are all `One` has only paths of weight `One`. -/
theorem weight_eq_one {F : VectorFst W} (harc : ∀ e q a, F.arc? e = some (q, a) → a.weight = 1)
    (hfinal : ∀ q w, F.final? q = some w → w = 1) (p : List ℕ) (q : ℕ) : F.weight p q = 1 := by
  have hone : ∀ e ∈ p, F.weightAt (some e) = 1 := by
    intro e _
    rw [weightAt, Option.bind_some]
    rcases he : F.arc? e with _ | ⟨r, a⟩
    · rfl
    · exact harc e r a he
  have hq : F.finalAt (some q) = 1 := by
    rw [finalAt, Option.bind_some]
    rcases hf : F.final? q with _ | w
    · rfl
    · exact hfinal q w hf
  rw [weight, List.map_congr_left hone, hq, mul_one]
  exact List.prod_eq_one fun x hx => (List.mem_map.mp hx).elim fun _ h => h.2.symm

/-! ### The strings of a composition -/

section Strings
variable {F G : VectorFst Unit} {C : VectorFst Origin}

/-- The string of a machine on the arc it contributes. -/
theorem filter_label {label : ℕ → Option ℤ} {o : Option ℕ} {i : ℤ}
    (h : sideLabel label o = some i) :
    (o.toList.filterMap label).filter (· ≠ 0) = if i = 0 then [] else [i] := by
  rcases o with _ | l
  · obtain rfl : (0 : ℤ) = i := Option.some.inj h
    rfl
  · have hl : label l = some i := h
    by_cases hi : i = 0 <;> simp [hl, hi]

variable (hmatched : ∀ e q a, C.arc? e = some (q, a) → Matched F G a) {p : List ℕ}
  (hp : ∀ e ∈ p, ∃ q a, C.arc? e = some (q, a))

include hmatched hp

theorem istring_leftPath : F.istring (C.leftPath p) = C.istring p := by
  induction p with
  | nil => rfl
  | cons e p ih =>
    obtain ⟨q, a, ha⟩ := hp e (by simp)
    rw [leftPath_cons ha, istring_append, istring_cons ha, ih fun f hf => hp f (by simp [hf])]
    congr 1
    exact filter_label (hmatched e q a ha).ilabel

theorem ostring_rightPath : G.ostring (C.rightPath p) = C.ostring p := by
  induction p with
  | nil => rfl
  | cons e p ih =>
    obtain ⟨q, a, ha⟩ := hp e (by simp)
    rw [rightPath_cons ha, ostring_append, ostring_cons ha, ih fun f hf => hp f (by simp [hf])]
    congr 1
    exact filter_label (hmatched e q a ha).olabel

/-- Both machines have the same string on the shared tape. -/
theorem ostring_leftPath : F.ostring (C.leftPath p) = G.istring (C.rightPath p) := by
  induction p with
  | nil => rfl
  | cons e p ih =>
    obtain ⟨q, a, ha⟩ := hp e (by simp)
    have hmatch := hmatched e q a ha
    have hleft : ∃ i, sideLabel F.olabel? a.weight.1 = some i := by
      rcases hl : a.weight.1 with _ | l
      · exact ⟨0, rfl⟩
      · obtain ⟨r, b, hb⟩ := exists_arc? (hmatch.left_lt hl)
        exact ⟨b.olabel, by rw [sideLabel, Option.elim_some, olabel?, hb]; rfl⟩
    obtain ⟨i, hi⟩ := hleft
    rw [leftPath_cons ha, rightPath_cons ha, ostring_append, istring_append,
      ih fun f hf => hp f (by simp [hf])]
    congr 1
    exact (filter_label hi).trans (filter_label (hmatch.shared ▸ hi)).symm

end Strings

/-! ### The weights of a composition -/

section Weights
variable {comp : Composer} {F G : VectorFst W}

theorem prod_toList (F : VectorFst W) (o : Option ℕ) :
    (o.toList.map fun e => F.weightAt (some e)).prod = F.weightAt o := by
  rcases o with _ | e
  · rfl
  · exact List.prod_singleton

/-- The weight of a path of a composition is the product of the weights of both paths. -/
theorem prod_weightAt_compose {p : List ℕ}
    (hp : ∀ e ∈ p, ∃ q a, (comp F.shape G.shape).arc? e = some (q, a)) :
    (p.map fun e => (VectorFst.compose comp F G).weightAt (some e)).prod =
      (((comp F.shape G.shape).leftPath p).map fun e => F.weightAt (some e)).prod *
        (((comp F.shape G.shape).rightPath p).map fun e => G.weightAt (some e)).prod := by
  induction p with
  | nil => exact (mul_one 1).symm
  | cons e p ih =>
    obtain ⟨q, a, ha⟩ := hp e (by simp)
    rw [List.map_cons, List.prod_cons, ih fun f hf => hp f (by simp [hf]), weightAt_compose ha,
      leftPath_cons ha, rightPath_cons ha, List.map_append, List.map_append, List.prod_append,
      List.prod_append, prod_toList, prod_toList, mul_mul_mul_comm]

theorem weight_compose {p : List ℕ} {q q₁ q₂ : ℕ} (hp : (comp F.shape G.shape).AcceptsAt p q)
    (hq : (comp F.shape G.shape).final? q = some (some q₁, some q₂)) :
    (VectorFst.compose comp F G).weight p q = F.weight ((comp F.shape G.shape).leftPath p) q₁ *
      G.weight ((comp F.shape G.shape).rightPath p) q₂ := by
  have hfinal : (VectorFst.compose comp F G).finalAt (some q) = F.finalAt (some q₁) *
      G.finalAt (some q₂) := by
    rw [finalAt, Option.bind_some, final?_compose, hq]
    rfl
  rw [weight, weight, weight, prod_weightAt_compose fun e he => exists_arc_of_mem hp he, hfinal,
    mul_mul_mul_comm]

/-- Composition of transducers composes their weighted relations. -/
theorem relates_compose (hC : IsComposition F.shape G.shape (comp F.shape G.shape))
    {s t : List ℤ} {w : W} :
    (VectorFst.compose comp F G).Relates s t w ↔
      ∃ u w₁ w₂, F.Relates s u w₁ ∧ G.Relates u t w₂ ∧ w = w₁ * w₂ := by
  have harcs {p : List ℕ} {q : ℕ} (hp : (comp F.shape G.shape).AcceptsAt p q) :
      ∀ e ∈ p, ∃ r a, (comp F.shape G.shape).arc? e = some (r, a) :=
        fun e he => exists_arc_of_mem hp he
  have hstrings (p : List ℕ) : (VectorFst.compose comp F G).istring p =
    (comp F.shape G.shape).istring p ∧
      (VectorFst.compose comp F G).ostring p = (comp F.shape G.shape).ostring p :=
    ⟨istring_map _ _ _ p, ostring_map _ _ _ p⟩
  constructor
  · rintro ⟨p, q, hp, rfl, rfl, rfl⟩
    have hacc : (comp F.shape G.shape).AcceptsAt p q := (acceptsAt_map _ _ _).mp hp
    obtain ⟨o, ho⟩ := Option.isSome_iff_exists.mp hacc.choose_spec.2.2
    obtain ⟨q₁, q₂, rfl⟩ := hC.final q o ho
    obtain ⟨h₁, h₂⟩ := hC.sound p q q₁ q₂ hacc ho
    refine ⟨F.ostring ((comp F.shape G.shape).leftPath p), _, _,
      ⟨_, q₁, (acceptsAt_map _ _ F).mp h₁, ?_, rfl, rfl⟩,
        ⟨_, q₂, (acceptsAt_map _ _ G).mp h₂, ?_, ?_, rfl⟩, weight_compose hacc ho⟩
    · rw [(hstrings p).1, ← istring_leftPath hC.matched (harcs hacc)]
      exact (istring_map _ _ F _).symm
    · have hshared := ostring_leftPath hC.matched (harcs hacc)
      rw [shape, shape, istring_map, ostring_map] at hshared
      exact hshared.symm
    · rw [(hstrings p).2, ← ostring_rightPath hC.matched (harcs hacc)]
      exact (ostring_map _ _ G _).symm
  · rintro ⟨u, w₁, w₂, ⟨p₁, q₁, h₁, rfl, hu, rfl⟩, ⟨p₂, q₂, h₂, hu', rfl, rfl⟩, rfl⟩
    have hshared : F.shape.ostring p₁ = G.shape.istring p₂ := by
      rw [shape, shape, istring_map, ostring_map, hu, hu']
    obtain ⟨p, q, hp, hq, rfl, rfl⟩ := hC.complete p₁ p₂ q₁ q₂ ((acceptsAt_map _ _ F).mpr h₁)
      ((acceptsAt_map _ _ G).mpr h₂) hshared
    refine ⟨p, q, (acceptsAt_map _ _ _).mpr hp, ?_, ?_, weight_compose hp hq⟩
    · rw [(hstrings p).1, ← istring_leftPath hC.matched (harcs hp)]
      exact istring_map _ _ F _
    · rw [(hstrings p).2, ← ostring_rightPath hC.matched (harcs hp)]
      exact ostring_map _ _ G _

end Weights

end VectorFst

/-! ### The accepting paths of a composition -/

section Accepting
variable {F G : VectorFst Unit} {C : VectorFst Origin} {p : List ℕ}

/-- An accepting path is a pair of accepting paths with one string on the shared tape. -/
theorem IsComposition.accepts (h : IsComposition F G C) (hp : C.Accepts p) :
    F.Accepts (C.leftPath p) ∧ G.Accepts (C.rightPath p) ∧
      F.ostring (C.leftPath p) = G.istring (C.rightPath p) := by
  obtain ⟨q, hq⟩ := hp
  obtain ⟨o, ho⟩ := Option.isSome_iff_exists.mp hq.choose_spec.2.2
  obtain ⟨q₁, q₂, rfl⟩ := h.final q o ho
  obtain ⟨h₁, h₂⟩ := h.sound p q q₁ q₂ hq ho
  exact ⟨⟨q₁, h₁⟩, ⟨q₂, h₂⟩, VectorFst.ostring_leftPath h.matched fun e =>
    VectorFst.exists_arc_of_mem hq⟩

theorem IsComposition.strings (h : IsComposition F G C) (hp : C.Accepts p) :
    F.istring (C.leftPath p) = C.istring p ∧ G.ostring (C.rightPath p) = C.ostring p := by
  obtain ⟨q, hq⟩ := hp
  have harcs : ∀ e ∈ p, ∃ q a, C.arc? e = some (q, a) := fun e => VectorFst.exists_arc_of_mem hq
  exact ⟨VectorFst.istring_leftPath h.matched harcs, VectorFst.ostring_rightPath h.matched harcs⟩

theorem IsComposition.exists_accepts (h : IsComposition F G C) {p₁ p₂ : List ℕ} (h₁ : F.Accepts p₁)
    (h₂ : G.Accepts p₂) (hshared : F.ostring p₁ = G.istring p₂) :
    ∃ p, C.Accepts p ∧ C.leftPath p = p₁ ∧ C.rightPath p = p₂ := by
  obtain ⟨q₁, hq₁⟩ := h₁
  obtain ⟨q₂, hq₂⟩ := h₂
  obtain ⟨p, q, hp, -, hleft, hright⟩ := h.complete p₁ p₂ q₁ q₂ hq₁ hq₂ hshared
  exact ⟨p, ⟨q, hp⟩, hleft, hright⟩

end Accepting

end StochasticEdit.Wfst
