import StochasticEdit.Wfst.Connect

/-! Composition with an epsilon filter. Where both machines can move on the empty word the
product has a path for every order of these moves. The sequence filter keeps one of them: the
left machine moves first, and once the right one has moved alone it waits until both move
together. So the filtered product is exact for any two machines. -/

namespace StochasticEdit.Wfst

/-! ### Orders of moves -/

/-- The filter after an arc. It is `true` once the right machine has moved alone. -/
def nextFlag : Bool → Origin → Option Bool
  | b, (some _, none) => if b then none else some false
  | _, (none, _) => some true
  | _, (some _, some _) => some false

/-- The filter after the arcs of a path. -/
def runFlag : Bool → List Origin → Option Bool
  | b, [] => some b
  | b, o :: os => (nextFlag b o).bind fun b' => runFlag b' os

/-- The arcs behind an arc of a composition: one machine moves on the empty word, or both move
on one symbol. -/
inductive Moves (F G : VectorFst Unit) : Origin → Prop
  | left {e : ℕ} (he : F.olabel? e = some 0) : Moves F G (some e, none)
  | right {f : ℕ} (hf : G.ilabel? f = some 0) : Moves F G (none, some f)
  | joint {e f : ℕ} {x : ℤ} (hx : x ≠ 0) (he : F.olabel? e = some x) (hf : G.ilabel? f = some x) :
      Moves F G (some e, some f)

section Orders
variable {F G : VectorFst Unit} {b : Bool} {os os' : List Origin}

theorem Matched.moves_weight {a : Arc Origin} (h : Matched F G a) : Moves F G a.weight := by
  obtain ⟨hi, -, hshared, hmoves, hsingle⟩ := h
  rcases hw : a.weight with ⟨_ | e, _ | f⟩
  · exact absurd hw hmoves
  · rw [hw] at hshared
    exact .right hshared.symm
  · rw [hw] at hshared
    exact .left hshared
  · rw [hw] at hi hshared
    obtain ⟨r, hr, -⟩ := Option.map_eq_some_iff.mp (show F.ilabel? e = some a.ilabel from hi)
    have ho : F.olabel? e = some r.2.olabel := congrArg (Option.map _) hr
    refine .joint (fun h0 => ?_) ho (hshared.symm.trans ho)
    have hne := hsingle ⟨e, f, hw⟩
    rw [hw] at hne
    exact hne (h0 ▸ ho)

/-- Once the right machine has moved alone the left one does not. -/
theorem Moves.fst_ne_cons (hos : ∀ o ∈ os, Moves F G o) (hrun : (runFlag true os).isSome) {e : ℕ}
    (he : F.olabel? e = some 0) (p : List ℕ) : os.filterMap Prod.fst ≠ e :: p := by
  induction os with
  | nil => exact (List.cons_ne_nil e p).symm
  | cons o os ih =>
    intro hcons
    obtain ⟨ho, hrest⟩ := List.forall_mem_cons.mp hos
    cases ho with
    | left h => exact absurd hrun (by simp [runFlag, nextFlag])
    | right h => exact ih hrest hrun hcons
    | joint hx h _ =>
      obtain rfl := (List.cons.inj hcons).1
      exact hx (Option.some.inj (h.symm.trans he))

/-- The arcs of the two machines have only one order that passes the filter. -/
theorem Moves.eq_of_paths (hos : ∀ o ∈ os, Moves F G o) (hos' : ∀ o ∈ os', Moves F G o)
    (hrun : (runFlag b os).isSome) (hrun' : (runFlag b os').isSome)
    (hleft : os.filterMap Prod.fst = os'.filterMap Prod.fst)
    (hright : os.filterMap Prod.snd = os'.filterMap Prod.snd) : os = os' := by
  induction os generalizing os' b with
  | nil =>
    cases os' with
    | nil => rfl
    | cons o' os' =>
      obtain ⟨ho', -⟩ := List.forall_mem_cons.mp hos'
      cases ho' <;> simp at hleft hright
  | cons o os ih =>
    obtain ⟨ho, hrest⟩ := List.forall_mem_cons.mp hos
    cases os' with
    | nil => cases ho <;> simp at hleft hright
    | cons o' os' =>
      obtain ⟨ho', hrest'⟩ := List.forall_mem_cons.mp hos'
      cases ho with
      | left h =>
        cases ho' with
        | left h' =>
          obtain ⟨rfl, htail⟩ := List.cons.inj hleft
          cases b with
          | true => exact absurd hrun (by simp [runFlag, nextFlag])
          | false => rw [ih hrest hrest' hrun hrun' htail hright]
        | right h' => exact absurd hleft.symm (Moves.fst_ne_cons hrest' hrun' h _)
        | joint hx h' _ =>
          obtain ⟨rfl, -⟩ := List.cons.inj hleft
          exact absurd (Option.some.inj (h'.symm.trans h)) hx
      | right h =>
        cases ho' with
        | left h' => exact absurd hleft (Moves.fst_ne_cons hrest hrun h' _)
        | right h' =>
          obtain ⟨rfl, htail⟩ := List.cons.inj hright
          rw [ih hrest hrest' hrun hrun' hleft htail]
        | joint hx _ h' =>
          obtain ⟨rfl, -⟩ := List.cons.inj hright
          exact absurd (Option.some.inj (h'.symm.trans h)) hx
      | joint hx h h₂ =>
        cases ho' with
        | left h' =>
          obtain ⟨rfl, -⟩ := List.cons.inj hleft
          exact absurd (Option.some.inj (h.symm.trans h')) hx
        | right h' =>
          obtain ⟨rfl, -⟩ := List.cons.inj hright
          exact absurd (Option.some.inj (h₂.symm.trans h')) hx
        | joint _ _ _ =>
          obtain ⟨rfl, htail⟩ := List.cons.inj hleft
          obtain ⟨rfl, htail'⟩ := List.cons.inj hright
          rw [ih hrest hrest' hrun hrun' htail htail']

/-- The strings of a path, arc by arc. -/
theorem VectorFst.ostring_cons_label {W : Type*} {A : VectorFst W} {e : ℕ} {x : ℤ}
    (h : A.olabel? e = some x) (p : List ℕ) :
    A.ostring (e :: p) = if x = 0 then A.ostring p else x :: A.ostring p := by
  unfold VectorFst.ostring
  rw [List.filterMap_cons_some h, List.filter_cons]
  by_cases hx : x = 0 <;> simp [hx]

theorem VectorFst.istring_cons_label {W : Type*} {A : VectorFst W} {e : ℕ} {x : ℤ}
    (h : A.ilabel? e = some x) (p : List ℕ) :
    A.istring (e :: p) = if x = 0 then A.istring p else x :: A.istring p := by
  unfold VectorFst.istring
  rw [List.filterMap_cons_some h, List.filter_cons]
  by_cases hx : x = 0 <;> simp [hx]

/-- Two paths with the same string on the shared tape have an order that passes the filter, also
after the right machine has moved alone, if the left one need not do so next. -/
theorem exists_moves (p₁ p₂ : List ℕ) (b : Bool) (h₁ : ∀ e ∈ p₁, (F.olabel? e).isSome)
    (h₂ : ∀ f ∈ p₂, (G.ilabel? f).isSome) (hshared : F.ostring p₁ = G.istring p₂)
    (hb : b = true → ∀ e ∈ p₁.head?, F.olabel? e ≠ some 0) :
    ∃ os, (∀ o ∈ os, Moves F G o) ∧ (runFlag b os).isSome ∧ os.filterMap Prod.fst = p₁ ∧
      os.filterMap Prod.snd = p₂ := by
  -- one more move in front
  have hcons {o : Origin} {os : List Origin} {b' : Bool} {q₁ q₂ : List ℕ} (ho : Moves F G o)
      (hflag : nextFlag b o = some b') (h : (∀ o ∈ os, Moves F G o) ∧ (runFlag b' os).isSome ∧
        os.filterMap Prod.fst = q₁ ∧ os.filterMap Prod.snd = q₂) :
      (∀ o' ∈ o :: os, Moves F G o') ∧ (runFlag b (o :: os)).isSome ∧
        (o :: os).filterMap Prod.fst = o.1.toList ++ q₁ ∧
          (o :: os).filterMap Prod.snd = o.2.toList ++ q₂ := by
    obtain ⟨hos, hrun, rfl, rfl⟩ := h
    refine ⟨List.forall_mem_cons.mpr ⟨ho, hos⟩, ?_, ?_, ?_⟩
    · rwa [runFlag, hflag, Option.bind_some]
    · rcases ho1 : o.1 with _ | e <;> simp [ho1]
    · rcases ho2 : o.2 with _ | e <;> simp [ho2]
  match p₁, p₂ with
  | [], [] => exact ⟨[], by simp, rfl, rfl, rfl⟩
  | [], f :: p₂' =>
    obtain ⟨⟨y, hy⟩, h₂'⟩ := (List.forall_mem_cons.mp h₂).imp Option.isSome_iff_exists.mp id
    rw [VectorFst.istring_cons_label hy] at hshared
    by_cases hy0 : y = 0
    · rw [if_pos hy0] at hshared
      obtain ⟨os, hos⟩ := exists_moves [] p₂' true h₁ h₂' hshared (by simp)
      exact ⟨_, hcons (.right (hy0 ▸ hy)) rfl hos⟩
    · rw [if_neg hy0] at hshared
      exact absurd hshared.symm (List.cons_ne_nil _ _)
  | e :: p₁', p₂ =>
    obtain ⟨⟨x, hx⟩, h₁'⟩ := (List.forall_mem_cons.mp h₁).imp Option.isSome_iff_exists.mp id
    by_cases hx0 : x = 0
    · -- the left machine can only be stopped by a right one that has moved alone
      rw [VectorFst.ostring_cons_label hx, if_pos hx0] at hshared
      have hfalse : b = false := by
        by_contra hne
        exact hb (Bool.eq_true_of_not_eq_false hne) e rfl (hx0 ▸ hx)
      obtain ⟨os, hos⟩ := exists_moves p₁' p₂ false h₁' h₂ hshared (by simp)
      exact ⟨_, hcons (.left (hx0 ▸ hx)) (by rw [hfalse]; rfl) hos⟩
    · match p₂ with
      | [] =>
        rw [VectorFst.ostring_cons_label hx, if_neg hx0] at hshared
        exact absurd hshared (List.cons_ne_nil _ _)
      | f :: p₂' =>
        obtain ⟨⟨y, hy⟩, h₂'⟩ := (List.forall_mem_cons.mp h₂).imp Option.isSome_iff_exists.mp id
        by_cases hy0 : y = 0
        · rw [VectorFst.istring_cons_label hy, if_pos hy0] at hshared
          have hhead : ∀ e' ∈ (e :: p₁').head?, F.olabel? e' ≠ some 0 := by
            intro e' he' h0
            obtain rfl := Option.some.inj he'
            exact hx0 (Option.some.inj (hx.symm.trans h0))
          obtain ⟨os, hos⟩ := exists_moves (e :: p₁') p₂' true h₁ h₂' hshared fun _ => hhead
          exact ⟨_, hcons (.right (hy0 ▸ hy)) rfl hos⟩
        · rw [VectorFst.ostring_cons_label hx, if_neg hx0, VectorFst.istring_cons_label hy,
            if_neg hy0] at hshared
          obtain ⟨rfl, hrest⟩ := List.cons.inj hshared
          obtain ⟨os, hos⟩ := exists_moves p₁' p₂' false h₁' h₂' hrest (by simp)
          exact ⟨_, hcons (.joint hx0 hx hy) rfl hos⟩
termination_by p₁.length + p₂.length

end Orders

/-! ### The filtered machine -/

/-- The number of a state with the filter in `b`. -/
def flagState (q : ℕ) (b : Bool) : ℕ := 2 * q + b.toNat

namespace VectorFst

variable (C : VectorFst Origin)

/-- The arcs that pass the filter in `b`. -/
def filteredArcs (q : ℕ) (b : Bool) : List (Arc Origin) :=
  ((C.states[q]?).elim [] State.arcs).filterMap fun a =>
    (nextFlag b a.weight).map fun b' => { a with nextstate := flagState a.nextstate b' }

/-- The machine with the filter. -/
def filtered : VectorFst Origin where
  start := C.start.map fun q => flagState q false
  states := (List.range (2 * C.numStates)).map fun n =>
    ⟨C.final? (n / 2), C.filteredArcs (n / 2) (decide (n % 2 = 1))⟩

variable {C} {q q' e n : ℕ} {b b' : Bool} {a c : Arc Origin} {p : List ℕ}

theorem flagState_div (q : ℕ) (b : Bool) : flagState q b / 2 = q := by
  have hb : b.toNat ≤ 1 := Bool.toNat_le b
  unfold flagState
  omega

theorem flagState_mod (q : ℕ) (b : Bool) : decide (flagState q b % 2 = 1) = b := by
  unfold flagState
  cases b
  · simp
  · simp

theorem exists_flagState (n : ℕ) : ∃ q b, n = flagState q b := by
  refine ⟨n / 2, decide (n % 2 = 1), ?_⟩
  unfold flagState
  rcases Nat.mod_two_eq_zero_or_one n with h | h
  · simp [h]
    omega
  · simp [h]
    omega

theorem getElem?_filtered (hq : q < C.numStates) (b : Bool) :
    C.filtered.states[flagState q b]? = some ⟨C.final? q, C.filteredArcs q b⟩ := by
  have hlt : flagState q b < 2 * C.numStates := by
    have hb : b.toNat ≤ 1 := Bool.toNat_le b
    unfold flagState
    omega
  rw [filtered, List.getElem?_map, List.getElem?_range hlt, Option.map_some, flagState_div,
    flagState_mod]

theorem lt_numStates_of_filtered {s : State Origin}
    (h : C.filtered.states[flagState q b]? = some s) : q < C.numStates := by
  have hlt := (List.getElem?_eq_some_iff.mp h).1
  rw [filtered, List.length_map, List.length_range] at hlt
  unfold flagState at hlt
  omega

theorem final?_filtered (q : ℕ) (b : Bool) : C.filtered.final? (flagState q b) = C.final? q := by
  by_cases hq : q < C.numStates
  · rw [final?, getElem?_filtered hq]
    rfl
  · rcases hs : C.filtered.states[flagState q b]? with _ | s
    · rw [final?, hs, final?, List.getElem?_eq_none (Nat.le_of_not_lt hq)]
    · exact absurd (lt_numStates_of_filtered hs) hq

theorem mem_filteredArcs : c ∈ C.filteredArcs q b ↔ ∃ e a b', C.arc? e = some (q, a) ∧
    nextFlag b a.weight = some b' ∧ { a with nextstate := flagState a.nextstate b' } = c := by
  simp only [filteredArcs, List.mem_filterMap, Option.map_eq_some_iff, mem_arcs_iff]
  constructor
  · rintro ⟨a, ⟨e, ha⟩, b', hb', rfl⟩
    exact ⟨e, a, b', ha, hb', rfl⟩
  · rintro ⟨e, a, b', ha, hb', rfl⟩
    exact ⟨a, ⟨e, ha⟩, b', hb', rfl⟩

/-- An arc of the filtered machine is an arc that passes. -/
theorem arc?_filtered (h : C.filtered.arc? e = some (flagState q b, c)) : ∃ e' a b',
    C.arc? e' = some (q, a) ∧ nextFlag b a.weight = some b' ∧
      { a with nextstate := flagState a.nextstate b' } = c := by
  obtain ⟨s, k, hs, hk, -⟩ := arc?_eq_some_iff.mp h
  rw [getElem?_filtered (lt_numStates_of_filtered hs)] at hs
  obtain rfl := Option.some.inj hs
  exact mem_filteredArcs.mp (List.mem_of_getElem? hk)

theorem exists_arc?_filtered (ha : C.arc? e = some (q, a)) (hb' : nextFlag b a.weight = some b') :
    ∃ e', C.filtered.arc? e' =
      some (flagState q b, { a with nextstate := flagState a.nextstate b' }) := by
  obtain ⟨s, k, hs, -, -⟩ := arc?_eq_some_iff.mp ha
  have hq : q < C.numStates := (List.getElem?_eq_some_iff.mp hs).1
  obtain ⟨k', hk'⟩ := List.getElem?_of_mem (mem_filteredArcs.mpr ⟨e, a, b', ha, hb', rfl⟩)
  exact ⟨_, arc?_eq_some_iff.mpr ⟨_, k', getElem?_filtered hq b, hk', rfl⟩⟩

/-- A path of the filtered machine is a path that passes. -/
theorem walk_filtered (h : walk C.filtered.ends (flagState q b) p = some n) :
    ∃ q' b' p', n = flagState q' b' ∧
    walk C.ends q p' = some q' ∧ C.arcWeights p' = C.filtered.arcWeights p ∧
    runFlag b (C.filtered.arcWeights p) = some b' := by
  induction p generalizing q b with
  | nil => exact ⟨q, b, [], (Option.some.inj h).symm, rfl, rfl, rfl⟩
  | cons e p ih =>
    obtain ⟨c, hc, hwalk⟩ := walk_cons_arc_iff.mp h
    obtain ⟨e', a, b', ha, hb', rfl⟩ := arc?_filtered hc
    obtain ⟨q', b'', p', rfl, hp', hweights, hrun⟩ := ih hwalk
    refine ⟨q', b'', e' :: p', rfl, walk_cons_arc_iff.mpr ⟨a, ha, hp'⟩, ?_, ?_⟩
    · rw [arcWeights_cons ha, arcWeights_cons hc, hweights]
    · rw [arcWeights_cons hc, runFlag]
      show (nextFlag b a.weight).bind _ = _
      rw [hb', Option.bind_some, hrun]

theorem exists_walk_filtered (h : walk C.ends q p = some q')
    (hrun : runFlag b (C.arcWeights p) = some b') :
    ∃ p', walk C.filtered.ends (flagState q b) p' = some (flagState q' b') ∧
      C.filtered.arcWeights p' = C.arcWeights p := by
  induction p generalizing q b with
  | nil =>
    obtain rfl := Option.some.inj h
    obtain rfl := Option.some.inj hrun
    exact ⟨[], rfl, rfl⟩
  | cons e p ih =>
    obtain ⟨a, ha, hwalk⟩ := walk_cons_arc_iff.mp h
    rw [arcWeights_cons ha, runFlag, Option.bind_eq_some_iff] at hrun
    obtain ⟨b₁, hb₁, hrun⟩ := hrun
    obtain ⟨p', hp', hweights⟩ := ih hwalk hrun
    obtain ⟨e', he'⟩ := exists_arc?_filtered ha hb₁
    refine ⟨e' :: p', walk_cons_arc_iff.mpr ⟨_, he', hp'⟩, ?_⟩
    rw [arcWeights_cons he', arcWeights_cons ha, hweights]

theorem acceptsAt_filtered (h : C.filtered.AcceptsAt p n) :
    ∃ q b p', n = flagState q b ∧ C.AcceptsAt p' q ∧
    C.arcWeights p' = C.filtered.arcWeights p ∧ runFlag false (C.filtered.arcWeights p) =
      some b := by
  obtain ⟨n₀, hstart, hwalk, hfinal⟩ := h
  obtain ⟨q₀, hq₀, rfl⟩ := Option.map_eq_some_iff.mp hstart
  obtain ⟨q, b, p', rfl, hp', hweights, hrun⟩ := walk_filtered hwalk
  rw [final?_filtered] at hfinal
  exact ⟨q, b, p', rfl, ⟨q₀, hq₀, hp', hfinal⟩, hweights, hrun⟩

theorem exists_acceptsAt_filtered (h : C.AcceptsAt p q)
    (hrun : runFlag false (C.arcWeights p) = some b) :
    ∃ p', C.filtered.AcceptsAt p' (flagState q b) ∧ C.filtered.arcWeights p' = C.arcWeights p := by
  obtain ⟨q₀, hstart, hwalk, hfinal⟩ := h
  obtain ⟨p', hp', hweights⟩ := exists_walk_filtered hwalk hrun
  refine ⟨p', ⟨flagState q₀ false, ?_, hp', ?_⟩, hweights⟩
  · show C.start.map _ = _
    rw [hstart, Option.map_some]
  · rwa [final?_filtered]

theorem exists_arc_of_mem_arcWeights {o : Origin} (h : o ∈ C.arcWeights p) :
    ∃ e q a, C.arc? e = some (q, a) ∧ a.weight = o := by
  obtain ⟨e, -, he⟩ := List.mem_filterMap.mp h
  obtain ⟨⟨q, a⟩, ha, rfl⟩ := Option.map_eq_some_iff.mp he
  exact ⟨e, q, a, ha, rfl⟩

/-- If the arcs of every state differ in their weights, these determine a path. -/
theorem walk_eq_of_arcWeights (hdistinct : Distinct C)
    {p p' : List ℕ} {q r r' : ℕ} (hp : walk C.ends q p = some r) (hp' : walk C.ends q p' = some r')
    (hweights : C.arcWeights p = C.arcWeights p') : p = p' := by
  induction p generalizing p' q with
  | nil =>
    cases p' with
    | nil => rfl
    | cons e' p' =>
      obtain ⟨a', ha', -⟩ := walk_cons_arc_iff.mp hp'
      rw [arcWeights_cons ha'] at hweights
      exact absurd hweights.symm (List.cons_ne_nil _ _)
  | cons e p ih =>
    obtain ⟨a, ha, hwalk⟩ := walk_cons_arc_iff.mp hp
    rw [arcWeights_cons ha] at hweights
    cases p' with
    | nil => exact absurd hweights (List.cons_ne_nil _ _)
    | cons e' p' =>
      obtain ⟨a', ha', hwalk'⟩ := walk_cons_arc_iff.mp hp'
      rw [arcWeights_cons ha'] at hweights
      obtain ⟨hweight, hrest⟩ := List.cons.inj hweights
      obtain rfl := hdistinct.arc?_inj ha ha' hweight
      obtain rfl : a = a' := (Prod.mk.inj (Option.some.inj (ha.symm.trans ha'))).2
      rw [ih hwalk hwalk' hrest]

/-- The arcs that pass still have different arcs behind them. -/
theorem distinct_filtered (h : Distinct C) : Distinct C.filtered := by
  intro s hs
  obtain ⟨n, -, rfl⟩ := List.mem_map.mp hs
  refine (h.arcs _).filterMap _ ?_
  intro c c' hne d hd d' hd'
  obtain ⟨b₁, -, rfl⟩ := Option.map_eq_some_iff.mp hd
  obtain ⟨b₁', -, rfl⟩ := Option.map_eq_some_iff.mp hd'
  exact hne

end VectorFst

/-! ### Filtered compositions -/

section Composition
variable {F G : VectorFst Unit}

/-- Every order of moves along two paths is a path of the product. -/
theorem exists_walk_of_moves {os : List Origin} (hos : ∀ o ∈ os, Moves F G o) {i j i' j' : ℕ}
    (hi' : i' < F.numStates) (hj' : j' < G.numStates)
    (h₁ : walk F.ends i (os.filterMap Prod.fst) = some i')
    (h₂ : walk G.ends j (os.filterMap Prod.snd) = some j') :
    ∃ p, walk (product F G).ends (pairState G i j) p = some (pairState G i' j') ∧
      (product F G).arcWeights p = os := by
  induction os generalizing i j with
  | nil =>
    obtain rfl := Option.some.inj h₁
    obtain rfl := Option.some.inj h₂
    exact ⟨[], rfl, rfl⟩
  | cons o os ih =>
    obtain ⟨ho, hrest⟩ := List.forall_mem_cons.mp hos
    have hi := lt_numStates_of_walk h₁ hi'
    have hj := lt_numStates_of_walk h₂ hj'
    have hcons {c : Arc Origin} {p : List ℕ} (hc : c ∈ productArcs F G i j)
        (hp : walk (product F G).ends c.nextstate p = some (pairState G i' j'))
        (hw : (product F G).arcWeights p = os) :
        ∃ p', walk (product F G).ends (pairState G i j) p' = some (pairState G i' j') ∧
          (product F G).arcWeights p' = c.weight :: os := by
      obtain ⟨e, he⟩ := exists_arc?_product hi hj hc
      exact ⟨e :: p, VectorFst.walk_cons_arc_iff.mpr
        ⟨c, he, hp⟩, by rw [VectorFst.arcWeights_cons he, hw]⟩
    have hlabel {e q : ℕ} {x : ℤ} {a : Arc Unit} {l : ℕ → Option ℤ} {g : Arc Unit → ℤ}
      (A : VectorFst Unit)
        (hl : l e = (A.arc? e).map fun r => g r.2) (ha : A.arc? e = some (q, a))
        (hx : l e = some x) : g a = x := by
      rw [hl, ha] at hx
      exact Option.some.inj hx
    cases ho with
    | left he =>
      obtain ⟨a, ha, hwalk⟩ := VectorFst.walk_cons_arc_iff.mp h₁
      obtain ⟨p, hp, hw⟩ := ih hrest hwalk h₂
      exact hcons (mem_productArcs.mpr
        (.inl ⟨_, a, ha, ⟨hlabel F rfl ha he, lt_numStates_of_walk hwalk hi'⟩, rfl⟩)) hp hw
    | right hf =>
      obtain ⟨b, hb, hwalk⟩ := VectorFst.walk_cons_arc_iff.mp h₂
      obtain ⟨p, hp, hw⟩ := ih hrest h₁ hwalk
      exact hcons (mem_productArcs.mpr
        (.inr (.inl ⟨_, b, hb, ⟨hlabel G rfl hb hf, lt_numStates_of_walk hwalk hj'⟩, rfl⟩)))
        hp hw
    | joint hx he hf =>
      obtain ⟨a, ha, hwalk⟩ := VectorFst.walk_cons_arc_iff.mp h₁
      obtain ⟨b, hb, hwalk'⟩ := VectorFst.walk_cons_arc_iff.mp h₂
      obtain ⟨p, hp, hw⟩ := ih hrest hwalk hwalk'
      have hao : a.olabel = _ := hlabel F rfl ha he
      have hbi : b.ilabel = _ := hlabel G rfl hb hf
      exact hcons
        (mem_productArcs.mpr (.inr (.inr ⟨_, a, _, b, ha, hb, ⟨hao.trans hbi.symm, hao ▸ hx,
        lt_numStates_of_walk hwalk hi', lt_numStates_of_walk hwalk' hj'⟩, rfl⟩))) hp hw

/-- The filter keeps a path for every two paths that match. -/
theorem isComposition_filtered (F G : VectorFst Unit) : IsComposition F G
    (product F G).filtered where
  matched e n c hc := by
    obtain ⟨q, b, rfl⟩ := VectorFst.exists_flagState n
    obtain ⟨e', a, b', ha, -, rfl⟩ := VectorFst.arc?_filtered hc
    have h := matched_product ha
    exact ⟨h.ilabel, h.olabel, h.shared, h.moves, h.single⟩
  final n o ho := by
    obtain ⟨q, b, rfl⟩ := VectorFst.exists_flagState n
    rw [VectorFst.final?_filtered] at ho
    exact (isComposition_product F G).final q o ho
  sound p n q₁ q₂ hp ho := by
    obtain ⟨q, b, p', rfl, hp', hweights, -⟩ := VectorFst.acceptsAt_filtered hp
    rw [VectorFst.final?_filtered] at ho
    rw [VectorFst.leftPath_eq,
      VectorFst.rightPath_eq, ← hweights, ← VectorFst.leftPath_eq, ← VectorFst.rightPath_eq]
    exact (isComposition_product F G).sound p' q q₁ q₂ hp' ho
  complete p₁ p₂ q₁ q₂ h₁ h₂ hshared := by
    obtain ⟨s₁, hs₁, hwalk₁, hf₁⟩ := h₁
    obtain ⟨s₂, hs₂, hwalk₂, hf₂⟩ := h₂
    have hlabel {A : VectorFst Unit} {s q : ℕ} {p : List ℕ} (hp : walk A.ends s p = some q)
      {g : ℕ × Arc Unit → ℤ} :
        ∀ e ∈ p, ((A.arc? e).map g).isSome := by
      intro e he
      obtain ⟨r, a, ha⟩ := VectorFst.exists_arc_of_walk hp he
      rw [ha]
      rfl
    obtain ⟨os, hos, hrun, rfl, rfl⟩ :=
      exists_moves p₁ p₂ false (hlabel hwalk₁) (hlabel hwalk₂) hshared
      fun hfalse => absurd hfalse Bool.false_ne_true
    obtain ⟨p, hp, hw⟩ := exists_walk_of_moves hos (final?_lt hf₁) (final?_lt hf₂) hwalk₁ hwalk₂
    obtain ⟨b, hb⟩ := Option.isSome_iff_exists.mp hrun
    have hfinal : (product F G).final? (pairState G q₁ q₂) = some (some q₁, some q₂) := by
      rw [final?_product (final?_lt hf₁) (final?_lt hf₂)]
      exact productFinal_eq_some.mpr ⟨⟨hf₁, hf₂⟩, rfl⟩
    have haccepts : (product F G).AcceptsAt p (pairState G q₁ q₂) := by
      refine ⟨pairState G s₁ s₂, start_product.mpr ⟨s₁, s₂, hs₁, hs₂, ⟨?_, ?_⟩, rfl⟩,
        hp, by rw [hfinal]; rfl⟩
      · exact lt_numStates_of_walk hwalk₁ (final?_lt hf₁)
      · exact lt_numStates_of_walk hwalk₂ (final?_lt hf₂)
    obtain ⟨p', hp', hweights⟩ := VectorFst.exists_acceptsAt_filtered haccepts (hw ▸ hb)
    refine ⟨p', _, hp', ?_, ?_, ?_⟩
    · rw [VectorFst.final?_filtered, hfinal]
    · rw [VectorFst.leftPath_eq, hweights, hw]
    · rw [VectorFst.rightPath_eq, hweights, hw]

/-- `Compose` with the sequence filter, trimmed. -/
noncomputable def sequenceCompose : Composer := fun F G => (product F G).filtered.connect

theorem composes_sequenceCompose (F G : VectorFst Unit) : Composes F G (sequenceCompose F G) :=
  (isComposition_filtered F G).composes_connect

/-- The filter leaves one path for every two paths that match. -/
theorem isExact_sequenceCompose (F G : VectorFst Unit) : IsExact F G (sequenceCompose F G) where
  toIsComposition := (isComposition_filtered F G).connect
  unique p p' hp hp' hleft hright := by
    have hmoves (r : List ℕ) : ∀ o ∈ (sequenceCompose F G).arcWeights r, Moves F G o := by
      intro o ho
      obtain ⟨e, q, a, ha, rfl⟩ := VectorFst.exists_arc_of_mem_arcWeights ho
      exact ((composes_sequenceCompose F G).matched e q a ha).moves_weight
    have hrun {r : List ℕ} (hr : (sequenceCompose F G).Accepts r) :
        (runFlag false ((sequenceCompose F G).arcWeights r)).isSome := by
      obtain ⟨i, hi⟩ := hr
      obtain ⟨n, r', -, hr', hweights⟩ := VectorFst.acceptsAt_connect hi
      obtain ⟨q, b, r'', -, -, -, hb⟩ := VectorFst.acceptsAt_filtered hr'
      rw [hweights] at hb
      exact Option.isSome_iff_exists.mpr ⟨b, hb⟩
    have hweights : (sequenceCompose F G).arcWeights p = (sequenceCompose F G).arcWeights p' := by
      rw [VectorFst.leftPath_eq, VectorFst.leftPath_eq] at hleft
      rw [VectorFst.rightPath_eq, VectorFst.rightPath_eq] at hright
      exact Moves.eq_of_paths (hmoves p) (hmoves p') (hrun hp) (hrun hp') hleft hright
    have hdistinct : Distinct (sequenceCompose F G) :=
      (VectorFst.distinct_filtered (distinct_product F G)).connect
    obtain ⟨q, q₀, hs, hwalk, -⟩ := hp
    obtain ⟨q', q₀', hs', hwalk', -⟩ := hp'
    obtain rfl := Option.some.inj (hs.symm.trans hs')
    exact VectorFst.walk_eq_of_arcWeights hdistinct hwalk hwalk' hweights

end Composition

end StochasticEdit.Wfst
