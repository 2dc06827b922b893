import StochasticEdit.Wfst.Product

/-! Trimming. The states between the start and a final state are kept and numbered anew, the
start state first. The paths stay what they are, so the trimmed machine of a composition is a
composition again, with the states and arcs that a composition should have. -/

namespace StochasticEdit.Wfst

namespace VectorFst

variable {W : Type*} (C : VectorFst W)

def Accessible (q : ℕ) : Prop := ∃ q₀ p, C.start = some q₀ ∧ walk C.ends q₀ p = some q

def Coaccessible (q : ℕ) : Prop := ∃ p f, walk C.ends q p = some f ∧ (C.final? f).isSome

/-- The states that are kept. -/
def Useful (q : ℕ) : Prop := C.Accessible q ∧ C.Coaccessible q

open Classical in
/-- The kept states in their new order. -/
noncomputable def kept : List ℕ :=
  (C.start.toList ++ (List.range C.numStates).filter fun q => C.start ≠ some q).filter
    fun q => C.Useful q

/-- The new number of a state. -/
noncomputable def index (q : ℕ) : ℕ := C.kept.idxOf q

noncomputable def renumber (a : Arc W) : Arc W := { a with nextstate := C.index a.nextstate }

open Classical in
noncomputable def keptArcs (q : ℕ) : List (Arc W) :=
  ((C.states[q]?).elim [] State.arcs).filterMap fun a =>
    if C.Useful a.nextstate then some (C.renumber a) else none

/-- The trimmed machine. -/
noncomputable def connect : VectorFst W where
  start := C.kept.head?.map fun _ => 0
  states := C.kept.map fun q => ⟨C.final? q, C.keptArcs q⟩

/-- The weights of the arcs of a path. -/
def arcWeights (p : List ℕ) : List W := p.filterMap fun e => (C.arc? e).map fun r => r.2.weight

variable {C} {e q q' i j : ℕ} {a b : Arc W} {p : List ℕ}

theorem arcWeights_cons (h : C.arc? e = some (q, a)) (p : List ℕ) :
    C.arcWeights (e :: p) = a.weight :: C.arcWeights p := by
  simp [arcWeights, h]

/-! ### The kept states -/

theorem Coaccessible.lt_numStates (h : C.Coaccessible q) : q < C.numStates := by
  obtain ⟨p, f, hwalk, hf⟩ := h
  exact lt_numStates_of_walk hwalk (final?_lt hf)

theorem Accessible.walk (h : C.Accessible q) (hp : walk C.ends q p = some q') :
    C.Accessible q' := by
  obtain ⟨q₀, p₀, hstart, hp₀⟩ := h
  exact ⟨q₀, p₀ ++ p, hstart, walk_append_iff.mpr ⟨q, hp₀, hp⟩⟩

theorem Coaccessible.walk (h : C.Coaccessible q') (hp : walk C.ends q p = some q') :
    C.Coaccessible q := by
  obtain ⟨p', f, hp', hf⟩ := h
  exact ⟨p ++ p', f, walk_append_iff.mpr ⟨q', hp, hp'⟩, hf⟩

theorem mem_kept : q ∈ C.kept ↔ C.Useful q := by
  simp only [kept, List.mem_filter, List.mem_append, Option.mem_toList, List.mem_range,
    decide_eq_true_eq]
  constructor
  · exact And.right
  · intro h
    refine ⟨?_, h⟩
    by_cases hstart : C.start = some q
    · exact .inl hstart
    · exact .inr ⟨h.2.lt_numStates, hstart⟩

theorem nodup_kept : C.kept.Nodup := by
  apply List.Pairwise.filter
  apply List.nodup_append.mpr
  refine ⟨?_, List.nodup_range.filter _, ?_⟩
  · cases C.start <;> simp
  · intro q hq q' hq' heq
    subst heq
    simp only [List.mem_filter, decide_eq_true_eq] at hq'
    exact hq'.2 (Option.mem_toList.mp hq)

theorem getElem?_index (h : C.Useful q) : C.kept[C.index q]? = some q := by
  rw [index, List.getElem?_eq_getElem (List.idxOf_lt_length_of_mem (mem_kept.mpr h)),
    List.getElem_idxOf]

theorem index_eq (h : C.kept[i]? = some q) : C.index q = i := by
  obtain ⟨hi, rfl⟩ := List.getElem?_eq_some_iff.mp h
  exact nodup_kept.idxOf_getElem i hi

theorem useful_of_getElem? (h : C.kept[i]? = some q) : C.Useful q :=
  mem_kept.mp (List.mem_of_getElem? h)

/-- The start state comes first. -/
theorem kept_of_useful_start {q₀ : ℕ} (hstart : C.start = some q₀) (h : C.Useful q₀) :
    C.kept[0]? = some q₀ := by
  unfold kept
  simp [hstart, h]

/-- If any state is kept the start state is. -/
theorem exists_start (h : C.Useful q) : ∃ q₀, C.start = some q₀ ∧ C.Useful q₀ := by
  obtain ⟨⟨q₀, p, hstart, hp⟩, hq⟩ := h
  exact ⟨q₀, hstart, ⟨q₀, [], hstart, rfl⟩, hq.walk hp⟩

theorem start_connect (h : C.connect.start = some i) :
    i = 0 ∧ ∃ q₀, C.start = some q₀ ∧ C.kept[0]? = some q₀ := by
  obtain ⟨q, hq, rfl⟩ := Option.map_eq_some_iff.mp h
  obtain ⟨q₀, hstart, huseful⟩ := exists_start (mem_kept.mp (List.mem_of_head? hq))
  exact ⟨rfl, q₀, hstart, kept_of_useful_start hstart huseful⟩

theorem connect_start (h : C.Useful q) : C.connect.start = some 0 := by
  obtain ⟨q₀, hstart, huseful⟩ := exists_start h
  have hhead := kept_of_useful_start hstart huseful
  rw [← List.head?_eq_getElem?] at hhead
  show C.kept.head?.map _ = _
  rw [hhead, Option.map_some]

theorem numStates_connect : C.connect.numStates = C.kept.length := List.length_map _

theorem final?_connect (i : ℕ) : C.connect.final? i = C.kept[i]?.bind C.final? := by
  rw [final?, connect, List.getElem?_map]
  cases C.kept[i]? <;> rfl

/-! ### The kept arcs -/

theorem mem_keptArcs : b ∈ C.keptArcs q ↔
    ∃ e a, C.arc? e = some (q, a) ∧ C.Useful a.nextstate ∧ C.renumber a = b := by
  simp only [keptArcs, List.mem_filterMap, Option.ite_none_right_eq_some, Option.some.injEq,
    mem_arcs_iff]
  constructor
  · rintro ⟨a, ⟨e, ha⟩, huseful, rfl⟩
    exact ⟨e, a, ha, huseful, rfl⟩
  · rintro ⟨e, a, ha, huseful, rfl⟩
    exact ⟨a, ⟨e, ha⟩, huseful, rfl⟩

theorem getElem?_connect (h : C.kept[i]? = some q) :
    C.connect.states[i]? = some ⟨C.final? q, C.keptArcs q⟩ := by
  rw [connect, List.getElem?_map, h, Option.map_some]

/-- An arc of the trimmed machine is an arc between kept states. -/
theorem arc?_connect (h : C.connect.arc? e = some (i, b)) : ∃ q e' a, C.kept[i]? = some q ∧
    C.arc? e' = some (q, a) ∧ C.Useful a.nextstate ∧ C.renumber a = b := by
  obtain ⟨s, k, hs, hk, -⟩ := arc?_eq_some_iff.mp h
  obtain ⟨q, hq, rfl⟩ := Option.map_eq_some_iff.mp ((List.getElem?_map ..).symm.trans hs)
  obtain ⟨e', a, ha, huseful, rfl⟩ := mem_keptArcs.mp (List.mem_of_getElem? hk)
  exact ⟨q, e', a, hq, ha, huseful, rfl⟩

theorem exists_arc?_connect (hi : C.kept[i]? = some q) (ha : C.arc? e = some (q, a))
    (h : C.Useful a.nextstate) :
    ∃ e', C.connect.arc? e' = some (i, C.renumber a) := by
  obtain ⟨k, hk⟩ := List.getElem?_of_mem (mem_keptArcs.mpr ⟨e, a, ha, h, rfl⟩)
  exact ⟨_, arc?_eq_some_iff.mpr ⟨_, k, getElem?_connect hi, hk, rfl⟩⟩

/-! ### Paths -/

/-- A path of the trimmed machine is a path between the kept states. -/
theorem walk_connect (hi : C.kept[i]? = some q) (h : walk C.connect.ends i p = some j) :
    ∃ q' p', C.kept[j]? = some q' ∧ walk C.ends q p' = some q' ∧
      C.arcWeights p' = C.connect.arcWeights p := by
  induction p generalizing i q with
  | nil =>
    obtain rfl := Option.some.inj h
    exact ⟨q, [], hi, rfl, rfl⟩
  | cons e p ih =>
    obtain ⟨b, hb, hwalk⟩ := walk_cons_arc_iff.mp h
    obtain ⟨r, e', a, hr, ha, huseful, rfl⟩ := arc?_connect hb
    obtain rfl := Option.some.inj (hi.symm.trans hr)
    obtain ⟨q', p', hq', hp', hweights⟩ := ih (getElem?_index huseful) hwalk
    refine ⟨q', e' :: p', hq', walk_cons_arc_iff.mpr ⟨a, ha, hp'⟩, ?_⟩
    rw [arcWeights_cons ha, arcWeights_cons hb, hweights]
    rfl

/-- Every state of a path between kept states is kept. -/
theorem exists_walk_connect (hi : C.kept[i]? = some q) (hq' : C.Coaccessible q')
    (h : walk C.ends q p = some q') :
    ∃ p' j, C.kept[j]? = some q' ∧ walk C.connect.ends i p' = some j ∧
      C.connect.arcWeights p' = C.arcWeights p := by
  induction p generalizing i q with
  | nil =>
    obtain rfl := Option.some.inj h
    exact ⟨[], i, hi, rfl, rfl⟩
  | cons e p ih =>
    obtain ⟨a, ha, hwalk⟩ := walk_cons_arc_iff.mp h
    have huseful : C.Useful a.nextstate := by
      refine ⟨(useful_of_getElem? hi).1.walk (p := [e]) ?_, hq'.walk hwalk⟩
      exact walk_cons_arc_iff.mpr ⟨a, ha, rfl⟩
    obtain ⟨p', j, hj, hp', hweights⟩ := ih (getElem?_index huseful) hwalk
    obtain ⟨e', he'⟩ := exists_arc?_connect hi ha huseful
    refine ⟨e' :: p', j, hj, walk_cons_arc_iff.mpr ⟨_, he', hp'⟩, ?_⟩
    rw [arcWeights_cons he', arcWeights_cons ha, hweights]
    rfl

theorem acceptsAt_connect (h : C.connect.AcceptsAt p i) :
    ∃ q p', C.kept[i]? = some q ∧ C.AcceptsAt p' q ∧ C.arcWeights p' = C.connect.arcWeights p := by
  obtain ⟨i₀, hstart, hwalk, hfinal⟩ := h
  obtain ⟨rfl, q₀, hq₀, hkept⟩ := start_connect hstart
  obtain ⟨q, p', hq, hp', hweights⟩ := walk_connect hkept hwalk
  rw [final?_connect, hq, Option.bind_some] at hfinal
  exact ⟨q, p', hq, ⟨q₀, hq₀, hp', hfinal⟩, hweights⟩

theorem exists_acceptsAt_connect (h : C.AcceptsAt p q) :
    ∃ p' i, C.kept[i]? = some q ∧ C.connect.AcceptsAt p' i ∧
      C.connect.arcWeights p' = C.arcWeights p := by
  obtain ⟨q₀, hstart, hwalk, hfinal⟩ := h
  have hq : C.Coaccessible q := ⟨[], q, rfl, hfinal⟩
  have huseful : C.Useful q₀ := ⟨⟨q₀, [], hstart, rfl⟩, hq.walk hwalk⟩
  obtain ⟨p', i, hi, hp', hweights⟩ :=
    exists_walk_connect (kept_of_useful_start hstart huseful) hq hwalk
  refine ⟨p', i, hi, ⟨0, connect_start huseful, hp', ?_⟩, hweights⟩
  rwa [final?_connect, hi]

/-- Every state of the trimmed machine is between the start and a final state. -/
theorem accessible_connect (hi : i < C.connect.numStates) :
    ∃ p, walk C.connect.ends 0 p = some i := by
  rw [numStates_connect] at hi
  have hkept : C.kept[i]? = some C.kept[i] := List.getElem?_eq_getElem hi
  obtain ⟨⟨q₀, p, hstart, hp⟩, hq⟩ := useful_of_getElem? hkept
  have huseful : C.Useful q₀ := ⟨⟨q₀, [], hstart, rfl⟩, hq.walk hp⟩
  obtain ⟨p', j, hj, hp', -⟩ := exists_walk_connect (kept_of_useful_start hstart huseful) hq hp
  have hij : i = j := (index_eq hkept).symm.trans (index_eq hj)
  exact ⟨p', hij ▸ hp'⟩

theorem coaccessible_connect (hi : i < C.connect.numStates) :
    ∃ p f, walk C.connect.ends i p = some f ∧ (C.connect.final? f).isSome := by
  rw [numStates_connect] at hi
  have hkept : C.kept[i]? = some C.kept[i] := List.getElem?_eq_getElem hi
  obtain ⟨p, f, hp, hf⟩ := (useful_of_getElem? hkept).2
  obtain ⟨p', j, hj, hp', -⟩ := exists_walk_connect hkept ⟨[], f, rfl, hf⟩ hp
  refine ⟨p', j, hp', ?_⟩
  rwa [final?_connect, hj]

end VectorFst

/-! ### Trimmed compositions -/

section Composition
variable {F G : VectorFst Unit} {C : VectorFst Origin}

theorem VectorFst.leftPath_eq (p : List ℕ) :
    C.leftPath p = (C.arcWeights p).filterMap Prod.fst := by
  rw [leftPath, arcWeights, List.filterMap_filterMap]
  apply congrArg (List.filterMap · p)
  funext e
  cases C.arc? e <;> rfl

theorem VectorFst.rightPath_eq (p : List ℕ) :
    C.rightPath p = (C.arcWeights p).filterMap Prod.snd := by
  rw [rightPath, arcWeights, List.filterMap_filterMap]
  apply congrArg (List.filterMap · p)
  funext e
  cases C.arc? e <;> rfl

/-- The trimmed machine of a composition has the states and arcs that are promised. -/
theorem IsComposition.composes_connect (h : IsComposition F G C) : Composes F G C.connect where
  start hne := by
    obtain ⟨i, hi⟩ := List.exists_mem_of_ne_nil _ hne
    obtain ⟨q, hq, -⟩ := List.mem_map.mp hi
    exact VectorFst.connect_start (VectorFst.mem_kept.mp hq)
  no_start hnil := by
    have hkept : C.kept = [] := List.map_eq_nil_iff.mp hnil
    show C.kept.head?.map _ = none
    rw [hkept]
    rfl
  target e i b hb := by
    obtain ⟨q, e', a, -, -, huseful, rfl⟩ := VectorFst.arc?_connect hb
    rw [VectorFst.numStates_connect]
    exact (List.getElem?_eq_some_iff.mp (VectorFst.getElem?_index huseful)).1
  accessible _ := VectorFst.accessible_connect
  coaccessible _ := VectorFst.coaccessible_connect
  matched e i b hb := by
    obtain ⟨q, e', a, -, ha, -, rfl⟩ := VectorFst.arc?_connect hb
    have hmatched := h.matched e' q a ha
    exact ⟨hmatched.ilabel, hmatched.olabel, hmatched.shared, hmatched.moves, hmatched.single⟩
  final i o ho := by
    rw [VectorFst.final?_connect] at ho
    obtain ⟨q, hq, hfinal⟩ := Option.bind_eq_some_iff.mp ho
    obtain ⟨q₁, q₂, rfl⟩ := h.final q o hfinal
    obtain ⟨⟨q₀, p, hstart, hp⟩, -⟩ := VectorFst.useful_of_getElem? hq
    obtain ⟨hleft, hright⟩ := h.sound p q q₁ q₂ ⟨q₀, hstart, hp, by rw [hfinal]; rfl⟩ hfinal
    exact ⟨q₁, q₂, rfl, hleft.choose_spec.2.2, hright.choose_spec.2.2⟩

/-- Trimming keeps the accepting paths. -/
theorem IsComposition.connect (h : IsComposition F G C) : IsComposition F G C.connect where
  matched := h.composes_connect.matched
  final i o ho := by
    obtain ⟨q₁, q₂, heq, -⟩ := h.composes_connect.final i o ho
    exact ⟨q₁, q₂, heq⟩
  sound p i q₁ q₂ hp ho := by
    obtain ⟨q, p', hq, hp', hweights⟩ := VectorFst.acceptsAt_connect hp
    rw [VectorFst.final?_connect, hq, Option.bind_some] at ho
    rw [VectorFst.leftPath_eq,
      VectorFst.rightPath_eq, ← hweights, ← VectorFst.leftPath_eq, ← VectorFst.rightPath_eq]
    exact h.sound p' q q₁ q₂ hp' ho
  complete p₁ p₂ q₁ q₂ h₁ h₂ hshared := by
    obtain ⟨p, q, hp, hq, rfl, rfl⟩ := h.complete p₁ p₂ q₁ q₂ h₁ h₂ hshared
    obtain ⟨p', i, hi, hp', hweights⟩ := VectorFst.exists_acceptsAt_connect hp
    refine ⟨p', i, hp', ?_, ?_, ?_⟩
    · rw [VectorFst.final?_connect, hi, Option.bind_some, hq]
    · rw [VectorFst.leftPath_eq, hweights, ← VectorFst.leftPath_eq]
    · rw [VectorFst.rightPath_eq, hweights, ← VectorFst.rightPath_eq]

/-- The kept arcs of a state still have different arcs behind them. -/
theorem Distinct.connect (h : Distinct C) : Distinct C.connect := by
  intro s hs
  obtain ⟨i, -, rfl⟩ := List.mem_map.mp hs
  refine (h.arcs i).filterMap _ ?_
  intro c c' hne b hb b' hb'
  rw [Option.ite_none_right_eq_some, Option.some.injEq] at hb hb'
  rw [← hb.2, ← hb'.2]
  exact hne

/-- The trimmed product, a composition as it is documented. -/
noncomputable def trimmedProduct : Composer := fun F G => (product F G).connect

theorem composes_trimmedProduct (F G : VectorFst Unit) : Composes F G (trimmedProduct F G) :=
  (isComposition_product F G).composes_connect

theorem isExact_trimmedProduct (hno : NoConflict F G) : IsExact F G (trimmedProduct F G) :=
  (isComposition_product F G).connect.isExact hno (distinct_product F G).connect

end Composition

end StochasticEdit.Wfst
