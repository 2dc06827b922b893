import StochasticEdit.Wfst.Vector

/-! Composition of transducers. Which states and arcs the result has depends on the
labels only: a composition of the weightless machines records for each arc of the
result the arc of the left and of the right machine it moves, `none` for a machine
that stands still, and the weights are multiplied in afterwards. -/

namespace StochasticEdit.Wfst

/-- The arcs, or the states, of the two machines behind an arc or a state of their
composition. -/
abbrev Origin := Option ℕ × Option ℕ

/-- A method of composition, on machines without weights. -/
abbrev Composer := VectorFst Unit → VectorFst Unit → VectorFst Origin

variable {W V : Type*}

namespace VectorFst

/-- The weight of an arc, with weight `One` for a machine that stands still. -/
def weightAt [One W] (F : VectorFst W) (e : Option ℕ) : W :=
  (e.bind F.arc?).elim 1 fun p => p.2.weight

theorem weightAt_of_arc? [One W] {F : VectorFst W} {e q : ℕ} {a : Arc W}
    (h : F.arc? e = some (q, a)) :
    F.weightAt (some e) = a.weight := by
  rw [weightAt, Option.bind_some, h]
  rfl

def finalAt [One W] (F : VectorFst W) (q : Option ℕ) : W := (q.bind F.final?).getD 1

/-- The weighted composition. -/
def compose [One W] [Mul W] (comp : Composer) (F G : VectorFst W) : VectorFst W :=
  (comp F.shape G.shape).map (fun o => F.weightAt o.1 * G.weightAt o.2)
    fun o => F.finalAt o.1 * G.finalAt o.2

/-- The arcs of the left machine under a path of a composition. -/
def leftPath (C : VectorFst Origin) (p : List ℕ) : List ℕ :=
  p.filterMap fun e => (C.arc? e).bind fun r => r.2.weight.1

def rightPath (C : VectorFst Origin) (p : List ℕ) : List ℕ :=
  p.filterMap fun e => (C.arc? e).bind fun r => r.2.weight.2

theorem leftPath_cons {C : VectorFst Origin} {e q : ℕ} {a : Arc Origin} (h : C.arc? e = some (q, a))
    (p : List ℕ) :
    C.leftPath (e :: p) = a.weight.1.toList ++ C.leftPath p := by
  rcases ha : a.weight.1 with _ | l <;> simp [leftPath, h, ha]

theorem rightPath_cons {C : VectorFst Origin} {e q : ℕ} {a : Arc Origin}
    (h : C.arc? e = some (q, a)) (p : List ℕ) :
    C.rightPath (e :: p) = a.weight.2.toList ++ C.rightPath p := by
  rcases ha : a.weight.2 with _ | l <;> simp [rightPath, h, ha]

end VectorFst

/-- The label of an arc; a machine that stands still moves on the empty word. -/
def sideLabel (label : ℕ → Option ℤ) (e : Option ℕ) : Option ℤ := e.elim (some 0) label

/-- The arc `a` of a composition of `F` and `G` is matched on the shared tape: both
machines move on one symbol, or one of them moves on the empty word. -/
structure Matched (F G : VectorFst Unit) (a : Arc Origin) : Prop where
  ilabel : sideLabel F.ilabel? a.weight.1 = some a.ilabel
  olabel : sideLabel G.olabel? a.weight.2 = some a.olabel
  shared : sideLabel F.olabel? a.weight.1 = sideLabel G.ilabel? a.weight.2
  moves : a.weight ≠ (none, none)
  single : (∃ l r, a.weight = (some l, some r)) → sideLabel F.olabel? a.weight.1 ≠ some 0

/-- The states and arcs of a composition, as documented: the result is trimmed, its
start state is 0, and its arcs are matched. -/
structure Composes (F G : VectorFst Unit) (C : VectorFst Origin) : Prop where
  start : C.states ≠ [] → C.start = some 0
  no_start : C.states = [] → C.start = none
  target : ∀ e q a, C.arc? e = some (q, a) → a.nextstate < C.numStates
  accessible : ∀ q, q < C.numStates → ∃ p, walk C.ends 0 p = some q
  coaccessible : ∀ q, q < C.numStates → ∃ p f, walk C.ends q p = some f ∧ (C.final? f).isSome
  matched : ∀ e q a, C.arc? e = some (q, a) → Matched F G a
  final : ∀ q o, C.final? q = some o → ∃ q₁ q₂, o = (some q₁, some q₂) ∧
    (F.final? q₁).isSome ∧ (G.final? q₂).isSome

/-- The accepting paths of a composition, as documented: they are matched pairs of
accepting paths with the same string on the shared tape, and there is one for every such
pair. -/
structure IsComposition (F G : VectorFst Unit) (C : VectorFst Origin) : Prop where
  matched : ∀ e q a, C.arc? e = some (q, a) → Matched F G a
  final : ∀ q o, C.final? q = some o → ∃ q₁ q₂, o = (some q₁, some q₂)
  sound : ∀ p q q₁ q₂, C.AcceptsAt p q → C.final? q = some (some q₁, some q₂) →
    F.AcceptsAt (C.leftPath p) q₁ ∧ G.AcceptsAt (C.rightPath p) q₂
  complete : ∀ p₁ p₂ q₁ q₂, F.AcceptsAt p₁ q₁ → G.AcceptsAt p₂ q₂ → F.ostring p₁ = G.istring p₂ →
    ∃ p q, C.AcceptsAt p q ∧ C.final? q = some (some q₁, some q₂) ∧ C.leftPath p = p₁ ∧
      C.rightPath p = p₂

/-- A composition whose filter leaves one path for every matched pair of paths. -/
structure IsExact (F G : VectorFst Unit)
    (C : VectorFst Origin) : Prop extends IsComposition F G C where
  unique : ∀ p p', C.Accepts p → C.Accepts p' → C.leftPath p = C.leftPath p' →
    C.rightPath p = C.rightPath p' → p = p'

/-! ### Arcs and paths of a composition -/

section Paths
variable {F G : VectorFst Unit} {C : VectorFst Origin}

theorem mem_leftPath {p : List ℕ} {l : ℕ} : l ∈ C.leftPath p ↔
    ∃ e ∈ p, ∃ q a, C.arc? e = some (q, a) ∧ a.weight.1 = some l := by
  simp [VectorFst.leftPath, Option.bind_eq_some_iff]

theorem mem_rightPath {p : List ℕ} {r : ℕ} : r ∈ C.rightPath p ↔
    ∃ e ∈ p, ∃ q a, C.arc? e = some (q, a) ∧ a.weight.2 = some r := by
  simp [VectorFst.rightPath, Option.bind_eq_some_iff]

/-- The right machine stands still exactly while the left one writes the empty word. -/
theorem Matched.right_eq_none_iff {a : Arc Origin} (h : Matched F G a) {l : ℕ}
    (hl : a.weight.1 = some l) : a.weight.2 = none ↔ F.olabel? l = some 0 := by
  have hshared := h.shared
  rw [hl] at hshared
  constructor
  · intro hr
    rw [hr] at hshared
    exact hshared
  · intro h0
    by_contra hne
    obtain ⟨r, hr⟩ := Option.ne_none_iff_exists'.mp hne
    have hsingle := h.single ⟨l, r, Prod.ext hl hr⟩
    rw [hl] at hsingle
    exact hsingle h0

theorem Matched.left_eq_none_iff {a : Arc Origin} (h : Matched F G a) {r : ℕ}
    (hr : a.weight.2 = some r) : a.weight.1 = none ↔ G.ilabel? r = some 0 := by
  have hshared := h.shared
  rw [hr] at hshared
  constructor
  · intro hl
    rw [hl] at hshared
    exact hshared.symm
  · intro h0
    by_contra hne
    obtain ⟨l, hl⟩ := Option.ne_none_iff_exists'.mp hne
    exact h.single ⟨l, r, Prod.ext hl hr⟩ (hshared.trans h0)

/-- Where `F` writes a symbol on every arc, `G` moves. -/
theorem Matched.exists_right {a : Arc Origin} (h : Matched F G a) (hF : ∀ l, F.olabel? l ≠ some 0) :
    ∃ r, a.weight.2 = some r := by
  rw [← Option.ne_none_iff_exists']
  intro hr
  obtain ⟨l, hl⟩ := Option.ne_none_iff_exists'.mp fun hl => h.moves (Prod.ext hl hr)
  exact hF l ((h.right_eq_none_iff hl).mp hr)

/-- Where `G` reads a symbol on every arc, `F` moves. -/
theorem Matched.exists_left {a : Arc Origin} (h : Matched F G a) (hG : ∀ r, G.ilabel? r ≠ some 0) :
    ∃ l, a.weight.1 = some l := by
  rw [← Option.ne_none_iff_exists']
  intro hl
  obtain ⟨r, hr⟩ := Option.ne_none_iff_exists'.mp fun hr => h.moves (Prod.ext hl hr)
  exact hG r ((h.left_eq_none_iff hr).mp hl)

theorem Matched.left_lt {a : Arc Origin} (h : Matched F G a) {l : ℕ} (hl : a.weight.1 = some l) :
    l < F.numArcs := by
  have hi := h.ilabel
  rw [hl] at hi
  obtain ⟨p, hp, -⟩ := Option.map_eq_some_iff.mp (show F.ilabel? l = some a.ilabel from hi)
  exact VectorFst.lt_numArcs_of_arc? hp

theorem Matched.right_lt {a : Arc Origin} (h : Matched F G a) {r : ℕ} (hr : a.weight.2 = some r) :
    r < G.numArcs := by
  have ho := h.olabel
  rw [hr] at ho
  obtain ⟨p, hp, -⟩ := Option.map_eq_some_iff.mp (show G.olabel? r = some a.olabel from ho)
  exact VectorFst.lt_numArcs_of_arc? hp

/-- Not both machines move on the empty word of the shared tape. -/
def NoConflict (F G : VectorFst Unit) : Prop :=
  (∀ l, F.olabel? l ≠ some 0) ∨ ∀ r, G.ilabel? r ≠ some 0

/-- Then the next moves of the two machines are the only ones of the composition. -/
theorem Matched.weight_eq {a a' : Arc Origin} (h : Matched F G a) (h' : Matched F G a')
    (hno : NoConflict F G) {p₁ p₁' p₂ p₂' : List ℕ}
    (hleft : a.weight.1.toList ++ p₁ = a'.weight.1.toList ++ p₁')
    (hright : a.weight.2.toList ++ p₂ = a'.weight.2.toList ++ p₂') : a.weight = a'.weight := by
  have halone {b b' : Arc Origin} (hb : Matched F G b) (hb' : Matched F G b') {l : ℕ}
    {r r' : List ℕ}
      (h₁ : b.weight.1 = none) (h₁' : b'.weight.1 = some l)
      (h₂ : b.weight.2.toList ++ r = b'.weight.2.toList ++ r') : False := by
    rcases hr : b.weight.2 with _ | k
    · exact hb.moves (Prod.ext h₁ hr)
    have hk := (hb.left_eq_none_iff hr).mp h₁
    rcases hr' : b'.weight.2 with _ | k'
    · have hl := (hb'.right_eq_none_iff h₁').mp hr'
      exact hno.elim (fun hF => hF l hl) fun hG => hG k hk
    · rw [hr, hr'] at h₂
      obtain rfl := (List.cons.inj h₂).1
      rw [(hb'.left_eq_none_iff hr').mpr hk] at h₁'
      contradiction
  rcases hl : a.weight.1 with _ | l
  · rcases hl' : a'.weight.1 with _ | l'
    · rcases hr : a.weight.2 with _ | r
      · exact absurd (Prod.ext hl hr) h.moves
      rcases hr' : a'.weight.2 with _ | r'
      · exact absurd (Prod.ext hl' hr') h'.moves
      rw [hr, hr'] at hright
      obtain rfl := (List.cons.inj hright).1
      exact Prod.ext (hl.trans hl'.symm) (hr.trans hr'.symm)
    · exact (halone h h' hl hl' hright).elim
  · rcases hl' : a'.weight.1 with _ | l'
    · exact (halone h' h hl' hl hright.symm).elim
    · rw [hl, hl'] at hleft
      obtain rfl := (List.cons.inj hleft).1
      have hsame : a.weight.2 = none ↔ a'.weight.2 = none :=
        (h.right_eq_none_iff hl).trans (h'.right_eq_none_iff hl').symm
      refine Prod.ext (hl.trans hl'.symm) ?_
      rcases hr : a.weight.2 with _ | r
      · exact (hsame.mp hr).symm
      rcases hr' : a'.weight.2 with _ | r'
      · rw [hsame.mpr hr'] at hr
        contradiction
      rw [hr, hr'] at hright
      rw [(List.cons.inj hright).1]

/-- The arcs of every state differ in the arcs behind them. -/
def Distinct (C : VectorFst Origin) : Prop :=
  ∀ s ∈ C.states, s.arcs.Pairwise fun a a' => a.weight ≠ a'.weight

theorem Distinct.arcs (h : Distinct C) (q : ℕ) :
    ((C.states[q]?).elim [] State.arcs).Pairwise fun a a' => a.weight ≠ a'.weight := by
  rcases hs : C.states[q]? with _ | s
  · exact List.Pairwise.nil
  · exact h s (List.mem_of_getElem? hs)

theorem Distinct.arc?_inj (h : Distinct C) {e e' q : ℕ} {a a' : Arc Origin}
    (ha : C.arc? e = some (q, a)) (ha' : C.arc? e' = some (q, a'))
    (hweight : a.weight = a'.weight) : e = e' := by
  obtain ⟨s, k, hs, hk, rfl⟩ := VectorFst.arc?_eq_some_iff.mp ha
  obtain ⟨s', k', hs', hk', rfl⟩ := VectorFst.arc?_eq_some_iff.mp ha'
  obtain rfl := Option.some.inj (hs.symm.trans hs')
  obtain ⟨hlt, rfl⟩ := List.getElem?_eq_some_iff.mp hk
  obtain ⟨hlt', rfl⟩ := List.getElem?_eq_some_iff.mp hk'
  have hpairwise := List.pairwise_iff_getElem.mp (h s (List.mem_of_getElem? hs))
  rcases Nat.lt_trichotomy k k' with hkk | rfl | hkk
  · exact absurd hweight (hpairwise k k' hlt hlt' hkk)
  · rfl
  · exact absurd hweight.symm (hpairwise k' k hlt' hlt hkk)

/-- Then the paths of the two machines determine the path of the composition, -/
theorem walk_eq_of_paths (hmatched : ∀ e q a, C.arc? e = some (q, a) → Matched F G a)
    (hno : NoConflict F G) (hdistinct : Distinct C)
    {p p' : List ℕ} {q r r' : ℕ} (hp : walk C.ends q p = some r) (hp' : walk C.ends q p' = some r')
    (hleft : C.leftPath p = C.leftPath p') (hright : C.rightPath p = C.rightPath p') : p = p' := by
  have hstill {e q : ℕ} {a : Arc Origin} (ha : C.arc? e = some (q, a)) (p : List ℕ)
      (h₁ : C.leftPath (e :: p) = []) (h₂ : C.rightPath (e :: p) = []) : False := by
    rw [VectorFst.leftPath_cons ha, List.append_eq_nil_iff, Option.toList_eq_nil_iff] at h₁
    rw [VectorFst.rightPath_cons ha, List.append_eq_nil_iff, Option.toList_eq_nil_iff] at h₂
    exact (hmatched e q a ha).moves (Prod.ext h₁.1 h₂.1)
  induction p generalizing p' q with
  | nil =>
    cases p' with
    | nil => rfl
    | cons e' p' =>
      obtain ⟨a', ha', -⟩ := VectorFst.walk_cons_arc_iff.mp hp'
      exact (hstill ha' p' hleft.symm hright.symm).elim
  | cons e p ih =>
    obtain ⟨a, ha, hwalk⟩ := VectorFst.walk_cons_arc_iff.mp hp
    cases p' with
    | nil => exact (hstill ha p hleft hright).elim
    | cons e' p' =>
      obtain ⟨a', ha', hwalk'⟩ := VectorFst.walk_cons_arc_iff.mp hp'
      rw [VectorFst.leftPath_cons ha, VectorFst.leftPath_cons ha'] at hleft
      rw [VectorFst.rightPath_cons ha, VectorFst.rightPath_cons ha'] at hright
      have hweight := (hmatched e q a ha).weight_eq (hmatched e' q a' ha') hno hleft hright
      obtain rfl := hdistinct.arc?_inj ha ha' hweight
      obtain rfl : a = a' := (Prod.mk.inj (Option.some.inj (ha.symm.trans ha'))).2
      rw [ih hwalk hwalk' (List.append_cancel_left hleft) (List.append_cancel_left hright)]

/-- and the composition is exact. -/
theorem IsComposition.isExact (h : IsComposition F G C) (hno : NoConflict F G)
    (hdistinct : Distinct C) : IsExact F G C where
  toIsComposition := h
  unique p p' hp hp' hleft hright := by
    obtain ⟨q, q₀, hs, hwalk, -⟩ := hp
    obtain ⟨q', q₀', hs', hwalk', -⟩ := hp'
    obtain rfl := Option.some.inj (hs.symm.trans hs')
    exact walk_eq_of_paths h.matched hno hdistinct hwalk hwalk' hleft hright

/-- A trimmed composition has states exactly if it accepts something. -/
theorem Composes.states_ne_nil_iff (h : Composes F G C) : C.states ≠ [] ↔ ∃ p, C.Accepts p := by
  constructor
  · intro hne
    obtain ⟨p, f, hp, hf⟩ := h.coaccessible 0 (List.length_pos_iff.mpr hne)
    exact ⟨p, f, 0, h.start hne, hp, hf⟩
  · rintro ⟨p, q, q₀, hstart, -, -⟩ hnil
    rw [h.no_start hnil] at hstart
    contradiction

/-- In a trimmed composition every arc is on an accepting path. -/
theorem Composes.exists_accepts (h : Composes F G C) {e q : ℕ} {a : Arc Origin}
    (he : C.arc? e = some (q, a)) : ∃ p, C.Accepts p ∧ e ∈ p := by
  obtain ⟨s, k, hs, -, -⟩ := VectorFst.arc?_eq_some_iff.mp he
  have hq : q < C.numStates := (List.getElem?_eq_some_iff.mp hs).1
  have hne : C.states ≠ [] := List.length_pos_iff.mp (Nat.zero_lt_of_lt hq)
  obtain ⟨p₁, hp₁⟩ := h.accessible q hq
  obtain ⟨p₂, f, hp₂, hf⟩ := h.coaccessible a.nextstate (h.target e q a he)
  refine ⟨p₁ ++ e :: p₂, ⟨f, 0, h.start hne, ?_, hf⟩, by simp⟩
  exact walk_append_cons_iff.mpr
    ⟨q, a.nextstate, hp₁, VectorFst.ends_eq_some_iff.mpr ⟨a, he, rfl⟩, hp₂⟩

end Paths

section Weighted
variable [One W] [Mul W] (comp : Composer) (F G : VectorFst W)

/-- The weights do not change the states and arcs of a composition. -/
theorem shape_compose : (VectorFst.compose comp F G).shape = (comp F.shape G.shape).shape :=
  VectorFst.shape_map _ _ _

variable {comp F G}

theorem arc?_compose {e q : ℕ} {a : Arc Origin} (h : (comp F.shape G.shape).arc? e = some (q, a)) :
    (VectorFst.compose comp F G).arc? e =
      some (q, a.map fun o => F.weightAt o.1 * G.weightAt o.2) := by
  rw [VectorFst.compose, VectorFst.arc?_map, h]
  rfl

/-- The weight of an arc of a composition. -/
theorem weightAt_compose {e q : ℕ} {a : Arc Origin}
    (h : (comp F.shape G.shape).arc? e = some (q, a)) :
    (VectorFst.compose comp F G).weightAt (some e) = F.weightAt a.weight.1 *
      G.weightAt a.weight.2 :=
  VectorFst.weightAt_of_arc? (arc?_compose h)

theorem final?_compose (q : ℕ) : (VectorFst.compose comp F G).final? q =
    ((comp F.shape G.shape).final? q).map fun o => F.finalAt o.1 * G.finalAt o.2 :=
  VectorFst.final?_map _ _ _ q

end Weighted

/-! ### Machines without the empty word -/

/-- The arcs of `F` read and write symbols. -/
structure NoEmpty {W : Type*} (F : VectorFst W) : Prop where
  ilabel : ∀ e, F.ilabel? e ≠ some 0
  olabel : ∀ e, F.olabel? e ≠ some 0

theorem NoEmpty.shape {W : Type*} {F : VectorFst W} (h : NoEmpty F) : NoEmpty F.shape := by
  constructor
  · intro e
    rw [VectorFst.shape, VectorFst.ilabel?_map]
    exact h.ilabel e
  · intro e
    rw [VectorFst.shape, VectorFst.olabel?_map]
    exact h.olabel e

theorem NoEmpty.noConflict_left {W V : Type*} {F : VectorFst W} (h : NoEmpty F) (G : VectorFst V) :
    NoConflict F.shape G.shape :=
  .inl h.shape.olabel

theorem NoEmpty.noConflict_right {W V : Type*} (F : VectorFst W) {G : VectorFst V} (h : NoEmpty G) :
    NoConflict F.shape G.shape :=
  .inr h.shape.ilabel

/-- Such machines move together. -/
theorem NoEmpty.compose {W : Type*} [One W] [Mul W] {comp : Composer} {F G : VectorFst W}
    (hF : NoEmpty F) (hG : NoEmpty G)
    (hmatched : ∀ e q a, (comp F.shape G.shape).arc? e = some (q, a) → Matched F.shape G.shape a) :
    NoEmpty (VectorFst.compose comp F G) := by
  have harc {e q : ℕ} {a : Arc Origin} (ha : (comp F.shape G.shape).arc? e = some (q, a)) :
      a.ilabel ≠ 0 ∧ a.olabel ≠ 0 := by
    have h := hmatched e q a ha
    obtain ⟨l, hl⟩ := h.exists_left hG.shape.ilabel
    obtain ⟨r, hr⟩ := h.exists_right hF.shape.olabel
    have hi := h.ilabel
    have ho := h.olabel
    rw [hl] at hi
    rw [hr] at ho
    exact ⟨fun h0 => hF.shape.ilabel l (h0 ▸ hi), fun h0 => hG.shape.olabel r (h0 ▸ ho)⟩
  constructor
  · intro e he
    rw [VectorFst.compose, VectorFst.ilabel?_map] at he
    obtain ⟨⟨q, a⟩, ha, h0⟩ := Option.map_eq_some_iff.mp he
    exact (harc ha).1 h0
  · intro e he
    rw [VectorFst.compose, VectorFst.olabel?_map] at he
    obtain ⟨⟨q, a⟩, ha, h0⟩ := Option.map_eq_some_iff.mp he
    exact (harc ha).2 h0

end StochasticEdit.Wfst
