import StochasticEdit.Wfst.Compose

/-! A composition that exists: the product of the state sets, with an arc for every pair
of arcs that match and for every arc on which one machine stands still. It is not
trimmed, but it has the accepting paths that a composition should have. -/

namespace StochasticEdit.Wfst

variable (F G : VectorFst Unit)

/-- The arcs of state `q` with their numbers. -/
def VectorFst.arcsOf (q : ℕ) : List (ℕ × Arc Unit) :=
  (List.range F.numArcs).filterMap fun e =>
    (F.arc? e).bind fun p => if p.1 = q then some (e, p.2) else none

/-- The number of a pair of states. -/
def pairState (i j : ℕ) : ℕ := i * G.numStates + j

/-- The left machine moves alone. -/
def leftArcs (i j : ℕ) : List (Arc Origin) :=
  (F.arcsOf i).filterMap fun a =>
    if a.2.olabel = 0 ∧ a.2.nextstate < F.numStates then
      some ⟨a.2.ilabel, 0, (some a.1, none), pairState G a.2.nextstate j⟩
    else none

/-- The right machine moves alone. -/
def rightArcs (i j : ℕ) : List (Arc Origin) :=
  (G.arcsOf j).filterMap fun b =>
    if b.2.ilabel = 0 ∧ b.2.nextstate < G.numStates then
      some ⟨0, b.2.olabel, (none, some b.1), pairState G i b.2.nextstate⟩
    else none

/-- Both machines move on one symbol. -/
def jointArcs (i j : ℕ) : List (Arc Origin) :=
  (F.arcsOf i).flatMap fun a => (G.arcsOf j).filterMap fun b =>
    if a.2.olabel = b.2.ilabel ∧ a.2.olabel ≠ 0 ∧ a.2.nextstate < F.numStates ∧
        b.2.nextstate < G.numStates then
      some ⟨a.2.ilabel, b.2.olabel, (some a.1, some b.1), pairState G a.2.nextstate b.2.nextstate⟩
    else none

def productArcs (i j : ℕ) : List (Arc Origin) :=
  leftArcs F G i j ++ rightArcs G i j ++ jointArcs F G i j

def productFinal (i j : ℕ) : Option Origin :=
  if (F.final? i).isSome ∧ (G.final? j).isSome then some (some i, some j) else none

/-- The product of two machines. -/
def product : VectorFst Origin where
  start := F.start.bind fun i => G.start.bind fun j =>
    if i < F.numStates ∧ j < G.numStates then some (pairState G i j) else none
  states := (List.range (F.numStates * G.numStates)).map fun n =>
    ⟨productFinal F G (n / G.numStates) (n % G.numStates),
      productArcs F G (n / G.numStates) (n % G.numStates)⟩

variable {F G}

theorem mem_arcsOf {q e : ℕ} {a : Arc Unit} : (e, a) ∈ F.arcsOf q ↔ F.arc? e = some (q, a) := by
  simp only [VectorFst.arcsOf, List.mem_filterMap, List.mem_range, Option.bind_eq_some_iff]
  constructor
  · rintro ⟨e', -, ⟨r, b⟩, hb, h⟩
    split_ifs at h with hr
    obtain ⟨rfl, rfl⟩ := Prod.mk.inj (Option.some.inj h)
    obtain rfl : r = q := hr
    exact hb
  · intro h
    exact ⟨e, VectorFst.lt_numArcs_of_arc? h, (q, a), h, if_pos rfl⟩

/-- What an arc of the product can be. -/
theorem mem_productArcs {i j : ℕ} {c : Arc Origin} : c ∈ productArcs F G i j ↔
    (∃ e a, F.arc? e = some (i, a) ∧ (a.olabel = 0 ∧ a.nextstate < F.numStates) ∧
      ⟨a.ilabel, 0, (some e, none), pairState G a.nextstate j⟩ = c) ∨
    (∃ f b, G.arc? f = some (j, b) ∧ (b.ilabel = 0 ∧ b.nextstate < G.numStates) ∧
      ⟨0, b.olabel, (none, some f), pairState G i b.nextstate⟩ = c) ∨
    ∃ e a f b, F.arc? e = some (i, a) ∧ G.arc? f = some (j, b) ∧
      (a.olabel = b.ilabel ∧ a.olabel ≠ 0 ∧ a.nextstate < F.numStates ∧ b.nextstate < G.numStates) ∧
      ⟨a.ilabel, b.olabel, (some e, some f), pairState G a.nextstate b.nextstate⟩ = c := by
  simp only [productArcs, leftArcs, rightArcs, jointArcs, List.mem_append, List.mem_filterMap,
    List.mem_flatMap,
    Prod.exists, mem_arcsOf, Option.ite_none_right_eq_some, Option.some.injEq, or_assoc]
  refine or_congr Iff.rfl (or_congr Iff.rfl ?_)
  constructor
  · rintro ⟨e, a, ha, f, b, hb, h⟩
    exact ⟨e, a, f, b, ha, hb, h⟩
  · rintro ⟨e, a, f, b, ha, hb, h⟩
    exact ⟨e, a, ha, f, b, hb, h⟩

/-! ### States -/

theorem pairState_lt {i j : ℕ} (hi : i < F.numStates) (hj : j < G.numStates) :
    pairState G i j < F.numStates * G.numStates := by
  have hle : (i + 1) * G.numStates ≤ F.numStates * G.numStates := Nat.mul_le_mul_right _ hi
  rw [Nat.add_mul, Nat.one_mul] at hle
  unfold pairState
  omega

theorem pairState_div {i j : ℕ} (hj : j < G.numStates) : pairState G i j / G.numStates = i := by
  rw [pairState, Nat.mul_comm, Nat.mul_add_div (by omega), Nat.div_eq_of_lt hj, Nat.add_zero]

theorem pairState_mod {i j : ℕ} (hj : j < G.numStates) : pairState G i j % G.numStates = j := by
  rw [pairState, Nat.mul_comm, Nat.mul_add_mod, Nat.mod_eq_of_lt hj]

theorem pairState_inj {i i' j j' : ℕ} (hj : j < G.numStates) (hj' : j' < G.numStates)
    (h : pairState G i j = pairState G i' j') : i = i' ∧ j = j' :=
  ⟨(pairState_div hj).symm.trans (h ▸ pairState_div hj'),
    (pairState_mod hj).symm.trans (h ▸ pairState_mod hj')⟩

theorem getElem?_product {i j : ℕ} (hi : i < F.numStates) (hj : j < G.numStates) :
    (product F G).states[pairState G i j]? = some ⟨productFinal F G i j, productArcs F G i j⟩ := by
  rw [product, List.getElem?_map, List.getElem?_range (pairState_lt hi hj), Option.map_some,
    pairState_div hj, pairState_mod hj]

/-- Every state of the product is a pair. -/
theorem exists_pairState {n : ℕ} {s : State Origin} (h : (product F G).states[n]? = some s) :
    ∃ i j, i < F.numStates ∧ j < G.numStates ∧ n = pairState G i j := by
  have hn := (List.getElem?_eq_some_iff.mp h).1
  rw [product, List.length_map, List.length_range] at hn
  have hpos : 0 < G.numStates := Nat.pos_of_mul_pos_left (Nat.zero_lt_of_lt hn)
  refine ⟨n / G.numStates, n % G.numStates, ?_, Nat.mod_lt _ hpos, ?_⟩
  · rwa [Nat.div_lt_iff_lt_mul hpos]
  · rw [pairState, Nat.mul_comm, Nat.div_add_mod]

theorem arc?_product {e n : ℕ} {c : Arc Origin} (h : (product F G).arc? e = some (n, c)) :
    ∃ i j, i < F.numStates ∧ j < G.numStates ∧ n = pairState G i j ∧ c ∈ productArcs F G i j := by
  obtain ⟨s, k, hs, hk, -⟩ := VectorFst.arc?_eq_some_iff.mp h
  obtain ⟨i, j, hi, hj, rfl⟩ := exists_pairState hs
  rw [getElem?_product hi hj] at hs
  obtain rfl := Option.some.inj hs
  exact ⟨i, j, hi, hj, rfl, List.mem_of_getElem? hk⟩

theorem exists_arc?_product {i j : ℕ} {c : Arc Origin} (hi : i < F.numStates) (hj : j < G.numStates)
    (hc : c ∈ productArcs F G i j) : ∃ e, (product F G).arc? e = some (pairState G i j, c) := by
  obtain ⟨k, hk⟩ := List.getElem?_of_mem hc
  exact ⟨_, VectorFst.arc?_eq_some_iff.mpr ⟨_, k, getElem?_product hi hj, hk, rfl⟩⟩

/-! ### Paths -/

theorem lt_numStates_of_walk {V : Type*} {A : VectorFst V} {p : List ℕ} {i i' : ℕ}
    (h : walk A.ends i p = some i') (hi' : i' < A.numStates) : i < A.numStates := by
  cases p with
  | nil =>
    obtain rfl := Option.some.inj h
    exact hi'
  | cons e p =>
    obtain ⟨a, ha, -⟩ := VectorFst.walk_cons_arc_iff.mp h
    obtain ⟨s, k, hs, -, -⟩ := VectorFst.arc?_eq_some_iff.mp ha
    exact (List.getElem?_eq_some_iff.mp hs).1

/-- A path of the product is a path of either machine. -/
theorem walk_product {p : List ℕ} {i j n : ℕ} (hi : i < F.numStates) (hj : j < G.numStates)
    (h : walk (product F G).ends (pairState G i j) p = some n) :
    ∃ i' j', i' < F.numStates ∧ j' < G.numStates ∧ n = pairState G i' j' ∧
      walk F.ends i ((product F G).leftPath p) = some i' ∧
      walk G.ends j ((product F G).rightPath p) = some j' := by
  induction p generalizing i j with
  | nil => exact ⟨i, j, hi, hj, (Option.some.inj h).symm, rfl, rfl⟩
  | cons e p ih =>
    obtain ⟨c, hc, hwalk⟩ := VectorFst.walk_cons_arc_iff.mp h
    obtain ⟨i₁, j₁, -, hj₁, hpair, hmem⟩ := arc?_product hc
    obtain ⟨rfl, rfl⟩ := pairState_inj hj hj₁ hpair
    rw [VectorFst.leftPath_cons hc, VectorFst.rightPath_cons hc]
    rcases mem_productArcs.mp hmem with ⟨f, a, ha, ⟨-, hlt⟩, rfl⟩ | ⟨g, b, hb, ⟨-, hlt⟩, rfl⟩ |
      ⟨f, a, g, b, ha, hb, ⟨-, -, hlt, hlt'⟩, rfl⟩
    · obtain ⟨i', j', hi', hj', rfl, hleft, hright⟩ := ih hlt hj hwalk
      exact ⟨i', j', hi', hj', rfl,
        VectorFst.walk_cons_arc_iff.mpr ⟨a, ha, hleft⟩, hright⟩
    · obtain ⟨i', j', hi', hj', rfl, hleft, hright⟩ := ih hi hlt hwalk
      exact ⟨i', j', hi', hj', rfl, hleft,
        VectorFst.walk_cons_arc_iff.mpr ⟨b, hb, hright⟩⟩
    · obtain ⟨i', j', hi', hj', rfl, hleft, hright⟩ := ih hlt hlt' hwalk
      exact ⟨i', j', hi', hj', rfl,
        VectorFst.walk_cons_arc_iff.mpr ⟨a, ha, hleft⟩,
        VectorFst.walk_cons_arc_iff.mpr ⟨b, hb, hright⟩⟩

/-- One arc of the product in front of a path. -/
theorem exists_cons_product {i j n : ℕ} {c : Arc Origin} {p p₁ p₂ : List ℕ} (hi : i < F.numStates)
    (hj : j < G.numStates) (hc : c ∈ productArcs F G i j)
    (hwalk : walk (product F G).ends c.nextstate p = some n) (hleft : (product F G).leftPath p = p₁)
    (hright : (product F G).rightPath p = p₂) :
    ∃ p', walk (product F G).ends (pairState G i j) p' = some n ∧
      (product F G).leftPath p' = c.weight.1.toList ++ p₁ ∧
      (product F G).rightPath p' = c.weight.2.toList ++ p₂ := by
  obtain ⟨e, he⟩ := exists_arc?_product hi hj hc
  refine ⟨e :: p, VectorFst.walk_cons_arc_iff.mpr ⟨c, he, hwalk⟩, ?_, ?_⟩
  · rw [VectorFst.leftPath_cons he, hleft]
  · rw [VectorFst.rightPath_cons he, hright]

/-- Two paths with the same string on the shared tape are a path of the product. The
machine with the empty word in front moves first. -/
theorem exists_walk_product {i' j' : ℕ} (hi' : i' < F.numStates) (hj' : j' < G.numStates)
    (p₁ p₂ : List ℕ) (i j : ℕ) (h₁ : walk F.ends i p₁ = some i') (h₂ : walk G.ends j p₂ = some j')
    (hshared : F.ostring p₁ = G.istring p₂) :
    ∃ p, walk (product F G).ends (pairState G i j) p = some (pairState G i' j') ∧
      (product F G).leftPath p = p₁ ∧ (product F G).rightPath p = p₂ := by
  have hi := lt_numStates_of_walk h₁ hi'
  have hj := lt_numStates_of_walk h₂ hj'
  have left {e : ℕ} {p₁' : List ℕ} (hp₁ : p₁ = e :: p₁') : ∃ a, F.arc? e = some (i, a) ∧
      walk F.ends a.nextstate p₁' = some i' ∧ a.nextstate < F.numStates := by
    rw [hp₁] at h₁
    obtain ⟨a, ha, hwalk⟩ := VectorFst.walk_cons_arc_iff.mp h₁
    exact ⟨a, ha, hwalk, lt_numStates_of_walk hwalk hi'⟩
  have right {f : ℕ} {p₂' : List ℕ} (hp₂ : p₂ = f :: p₂') : ∃ b, G.arc? f = some (j, b) ∧
      walk G.ends b.nextstate p₂' = some j' ∧ b.nextstate < G.numStates := by
    rw [hp₂] at h₂
    obtain ⟨b, hb, hwalk⟩ := VectorFst.walk_cons_arc_iff.mp h₂
    exact ⟨b, hb, hwalk, lt_numStates_of_walk hwalk hj'⟩
  match p₁, p₂ with
  | [], [] =>
    obtain rfl := Option.some.inj h₁
    obtain rfl := Option.some.inj h₂
    exact ⟨[], rfl, rfl, rfl⟩
  | e :: p₁', p₂ =>
    obtain ⟨a, ha, hwalk, hlt⟩ := left rfl
    by_cases ho : a.olabel = 0
    · have hrest : F.ostring p₁' = G.istring p₂ := by
        rw [← hshared, VectorFst.ostring_cons ha, if_pos ho, List.nil_append]
      obtain ⟨p, hp, hleft, hright⟩ :=
        exists_walk_product hi' hj' p₁' p₂ a.nextstate j hwalk h₂ hrest
      exact exists_cons_product hi hj (mem_productArcs.mpr (.inl ⟨e, a, ha, ⟨ho, hlt⟩, rfl⟩)) hp
        hleft hright
    · match p₂ with
      | [] =>
        rw [VectorFst.ostring_cons ha, if_neg ho] at hshared
        exact absurd hshared (List.cons_ne_nil _ _)
      | f :: p₂' =>
        obtain ⟨b, hb, hwalk', hlt'⟩ := right rfl
        by_cases hb0 : b.ilabel = 0
        · have hrest : F.ostring (e :: p₁') = G.istring p₂' := by
            rw [hshared, VectorFst.istring_cons hb, if_pos hb0, List.nil_append]
          obtain ⟨p, hp, hleft, hright⟩ :=
            exists_walk_product hi' hj' (e :: p₁') p₂' i b.nextstate h₁ hwalk' hrest
          exact exists_cons_product hi hj
            (mem_productArcs.mpr (.inr (.inl ⟨f, b, hb, ⟨hb0, hlt'⟩, rfl⟩)))
            hp hleft hright
        · rw [VectorFst.ostring_cons ha, if_neg ho, VectorFst.istring_cons hb,
            if_neg hb0] at hshared
          obtain ⟨hlabel, hrest⟩ := List.cons.inj hshared
          obtain ⟨p, hp, hleft, hright⟩ :=
            exists_walk_product hi' hj' p₁' p₂' a.nextstate b.nextstate hwalk hwalk' hrest
          exact exists_cons_product hi hj
            (mem_productArcs.mpr (.inr (.inr ⟨e, a, f, b, ha, hb, ⟨hlabel, ho, hlt, hlt'⟩, rfl⟩)))
              hp hleft hright
  | [], f :: p₂' =>
    obtain ⟨b, hb, hwalk', hlt'⟩ := right rfl
    by_cases hb0 : b.ilabel = 0
    · have hrest : F.ostring [] = G.istring p₂' := by
        rw [hshared, VectorFst.istring_cons hb, if_pos hb0, List.nil_append]
      obtain ⟨p, hp, hleft, hright⟩ :=
        exists_walk_product hi' hj' [] p₂' i b.nextstate h₁ hwalk' hrest
      exact exists_cons_product hi hj
        (mem_productArcs.mpr (.inr (.inl ⟨f, b, hb, ⟨hb0, hlt'⟩, rfl⟩)))
        hp hleft hright
    · rw [VectorFst.istring_cons hb, if_neg hb0] at hshared
      exact absurd hshared.symm (List.cons_ne_nil _ _)
termination_by p₁.length + p₂.length

/-! ### The product is a composition -/

theorem matched_product {e n : ℕ} {c : Arc Origin} (h : (product F G).arc? e = some (n, c)) :
    Matched F G c := by
  obtain ⟨i, j, -, -, -, hmem⟩ := arc?_product h
  have hlabels {A : VectorFst Unit} {f q : ℕ} {a : Arc Unit} (ha : A.arc? f = some (q, a)) :
      A.ilabel? f = some a.ilabel ∧ A.olabel? f = some a.olabel := by
    rw [VectorFst.ilabel?, VectorFst.olabel?, ha]
    exact ⟨rfl, rfl⟩
  rcases mem_productArcs.mp hmem with ⟨f, a, ha, ⟨h0, -⟩, rfl⟩ | ⟨g, b, hb, ⟨h0, -⟩, rfl⟩ |
    ⟨f, a, g, b, ha, hb, ⟨heq, hne, -, -⟩, rfl⟩
  · exact ⟨(hlabels ha).1, rfl, (hlabels ha).2.trans (by rw [h0]; rfl), by simp, by simp⟩
  · exact ⟨rfl, (hlabels hb).2, ((hlabels hb).1.trans (by rw [h0]; rfl)).symm, by simp, by simp⟩
  · have ho : sideLabel F.olabel? (some f) = some a.olabel := (hlabels ha).2
    refine ⟨(hlabels ha).1, (hlabels hb).2,
      ho.trans (by rw [heq]; exact (hlabels hb).1.symm), by simp, ?_⟩
    intro _
    rw [ho]
    exact fun h => hne (Option.some.inj h)

theorem final?_product {i j : ℕ} (hi : i < F.numStates) (hj : j < G.numStates) :
    (product F G).final? (pairState G i j) = productFinal F G i j := by
  rw [VectorFst.final?, getElem?_product hi hj]
  rfl

theorem productFinal_eq_some {i j : ℕ} {o : Origin} : productFinal F G i j = some o ↔
    ((F.final? i).isSome ∧ (G.final? j).isSome) ∧ (some i, some j) = o := by
  rw [productFinal, Option.ite_none_right_eq_some, Option.some.injEq]

theorem final?_lt {V : Type*} {A : VectorFst V} {q : ℕ} (h : (A.final? q).isSome) :
    q < A.numStates := by
  by_contra hq
  rw [VectorFst.final?, List.getElem?_eq_none (Nat.le_of_not_lt hq)] at h
  exact absurd h (by simp)

theorem start_product {n : ℕ} : (product F G).start = some n ↔
    ∃ i j, F.start = some i ∧ G.start = some j ∧ (i < F.numStates ∧ j < G.numStates) ∧
      pairState G i j = n := by
  simp only [product, Option.bind_eq_some_iff, Option.ite_none_right_eq_some, Option.some.injEq]
  constructor
  · rintro ⟨i, hi, j, hj, h⟩
    exact ⟨i, j, hi, hj, h⟩
  · rintro ⟨i, j, hi, hj, h⟩
    exact ⟨i, hi, j, hj, h⟩

/-- The product of any two machines is a composition of them. -/
theorem isComposition_product (F G : VectorFst Unit) : IsComposition F G (product F G) where
  matched _ _ _ h := matched_product h
  final q o h := by
    obtain ⟨s, hs, ho⟩ := Option.bind_eq_some_iff.mp h
    obtain ⟨i, j, hi, hj, rfl⟩ := exists_pairState hs
    rw [final?_product hi hj] at h
    exact ⟨i, j, (productFinal_eq_some.mp h).2.symm⟩
  sound p q q₁ q₂ hp hq := by
    obtain ⟨n, hn, hwalk, -⟩ := hp
    obtain ⟨i, j, hi, hj, ⟨hi', hj'⟩, rfl⟩ := start_product.mp hn
    obtain ⟨i', j', hi₂, hj₂, rfl, hleft, hright⟩ := walk_product hi' hj' hwalk
    rw [final?_product hi₂ hj₂] at hq
    obtain ⟨⟨hf, hg⟩, heq⟩ := productFinal_eq_some.mp hq
    obtain ⟨h₁, h₂⟩ := Prod.mk.inj heq
    obtain rfl := Option.some.inj h₁
    obtain rfl := Option.some.inj h₂
    exact ⟨⟨i, hi, hleft, hf⟩, ⟨j, hj, hright, hg⟩⟩
  complete p₁ p₂ q₁ q₂ h₁ h₂ hshared := by
    obtain ⟨i, hi, hwalk₁, hf⟩ := h₁
    obtain ⟨j, hj, hwalk₂, hg⟩ := h₂
    have hq₁ := final?_lt hf
    have hq₂ := final?_lt hg
    obtain ⟨p, hp, hleft, hright⟩ := exists_walk_product hq₁ hq₂ p₁ p₂ i j hwalk₁ hwalk₂ hshared
    have hfinal : (product F G).final? (pairState G q₁ q₂) = some (some q₁, some q₂) := by
      rw [final?_product hq₁ hq₂]
      exact productFinal_eq_some.mpr ⟨⟨hf, hg⟩, rfl⟩
    refine ⟨p, _, ⟨_, start_product.mpr ⟨i, j, hi, hj, ⟨lt_numStates_of_walk hwalk₁ hq₁,
      lt_numStates_of_walk hwalk₂ hq₂⟩, rfl⟩, hp, ?_⟩, hfinal, hleft, hright⟩
    rw [hfinal]
    rfl

/-! ### One path for every matched pair -/

theorem pairwise_arcsOf (q : ℕ) : (F.arcsOf q).Pairwise fun a b => a.1 ≠ b.1 := by
  refine List.Pairwise.filterMap _ ?_ List.nodup_range
  intro e e' hne a ha a' ha'
  have hnumber {e : ℕ} {a : ℕ × Arc Unit}
      (h : ((F.arc? e).bind fun p => if p.1 = q then some (e, p.2) else none) = some a) :
          a.1 = e := by
    obtain ⟨p, -, hp⟩ := Option.bind_eq_some_iff.mp h
    rw [Option.ite_none_right_eq_some, Option.some.injEq] at hp
    rw [← hp.2]
  rwa [hnumber ha, hnumber ha']

/-- A move with each of the arcs for which the guard holds. -/
theorem pairwise_moves {l : List (ℕ × Arc Unit)} (hl : l.Pairwise fun a b => a.1 ≠ b.1)
    (P : ℕ × Arc Unit → Prop) [DecidablePred P] {move : ℕ × Arc Unit → Arc Origin}
    (hmove : ∀ a b, (move a).weight = (move b).weight → a.1 = b.1) :
    (l.filterMap fun a => if P a then some (move a) else none).Pairwise fun c c' =>
      c.weight ≠ c'.weight := by
  refine hl.filterMap _ ?_
  intro a a' hne c hc c' hc'
  rw [Option.ite_none_right_eq_some, Option.some.injEq] at hc hc'
  rw [← hc.2, ← hc'.2]
  exact fun h => hne (hmove a a' h)

/-- The arcs of a state of the product have different arcs behind them. -/
theorem pairwise_productArcs (i j : ℕ) :
    (productArcs F G i j).Pairwise fun c c' => c.weight ≠ c'.weight := by
  have hleft {c : Arc Origin} (hc : c ∈ leftArcs F G i j) : c.weight.2 = none := by
    obtain ⟨a, -, ha⟩ := List.mem_filterMap.mp hc
    rw [Option.ite_none_right_eq_some, Option.some.injEq] at ha
    rw [← ha.2]
  have hright {c : Arc Origin} (hc : c ∈ rightArcs G i j) : c.weight.1 = none ∧
      c.weight.2 ≠ none := by
    obtain ⟨a, -, ha⟩ := List.mem_filterMap.mp hc
    rw [Option.ite_none_right_eq_some, Option.some.injEq] at ha
    rw [← ha.2]
    exact ⟨rfl, Option.some_ne_none _⟩
  have hjoint {c : Arc Origin} (hc : c ∈ jointArcs F G i j) : c.weight.1 ≠ none ∧
      c.weight.2 ≠ none := by
    obtain ⟨a, -, hc⟩ := List.mem_flatMap.mp hc
    obtain ⟨b, -, hb⟩ := List.mem_filterMap.mp hc
    rw [Option.ite_none_right_eq_some, Option.some.injEq] at hb
    rw [← hb.2]
    exact ⟨Option.some_ne_none _, Option.some_ne_none _⟩
  rw [productArcs, List.pairwise_append, List.pairwise_append]
  refine ⟨⟨?_, ?_, ?_⟩, ?_, ?_⟩
  · exact pairwise_moves (pairwise_arcsOf i) _ fun a a' h => Option.some.inj (Prod.mk.inj h).1
  · exact pairwise_moves (pairwise_arcsOf j) _ fun b b' h => Option.some.inj (Prod.mk.inj h).2
  · exact fun c hc c' hc' h => (hright hc').2 (h ▸ hleft hc)
  · refine List.pairwise_flatMap.mpr ⟨fun a _ => ?_, (pairwise_arcsOf i).imp ?_⟩
    · exact pairwise_moves (pairwise_arcsOf j) _ fun b b' h => Option.some.inj (Prod.mk.inj h).2
    · intro a a' hne c hc c' hc'
      obtain ⟨b, -, hb⟩ := List.mem_filterMap.mp hc
      obtain ⟨b', -, hb'⟩ := List.mem_filterMap.mp hc'
      rw [Option.ite_none_right_eq_some, Option.some.injEq] at hb hb'
      rw [← hb.2, ← hb'.2]
      exact fun h => hne (Option.some.inj (Prod.mk.inj h).1)
  · intro c hc c' hc' h
    rcases List.mem_append.mp hc with hc | hc
    · exact (hjoint hc').2 (h ▸ hleft hc)
    · exact (hjoint hc').1 (h ▸ (hright hc).1)

theorem distinct_product (F G : VectorFst Unit) : Distinct (product F G) := by
  intro s hs
  obtain ⟨n, -, rfl⟩ := List.mem_map.mp hs
  exact pairwise_productArcs _ _

/-- Where the machines cannot both move on the empty word the product is exact. -/
theorem isExact_product (hno : NoConflict F G) : IsExact F G (product F G) :=
  (isComposition_product F G).isExact hno (distinct_product F G)

end StochasticEdit.Wfst
