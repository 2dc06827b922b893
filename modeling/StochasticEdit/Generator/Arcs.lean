import StochasticEdit.Generator.Closure

/-! The finished transducer. The state of a context has one arc for each of its
moves, in order; the entry of `arc_map` under the end points and labels of an arc
is the action of the move that made it. -/

namespace StochasticEdit.Generator

open Wfst

variable {ord : HashOrder} {args : Args} {c d : Context}

/-! ### The moves of a context -/

theorem mem_moves_final {t : Option Context} : (Move.final, t) ∈ moves args c ↔
    t = none ∧ c.urc.length = args.sizes.urcMax ∧ ∀ s ∈ c.urc, s = stopStartChar := by
  have hcons : (Move.final, t) ∉ consumingMoves args c := by
    unfold consumingMoves
    cases c.urc with
    | nil => simp
    | cons u _ => by_cases hu : u = stopStartChar <;> simp [hu]
  by_cases hb : isBold args.sizes c <;>
    simp [moves, hb, finalMoves, boldMoves, absMoves, hcons, allStopStart_iff] <;> tauto

theorem mem_consumingMoves {m : Move} {t : Option Context} : (m, t) ∈ consumingMoves args c ↔
    ∃ u l, c.urc = u :: l ∧ u ≠ stopStartChar ∧
      ((∃ v ∈ args.V2, m = .sub v ∧ t = some (subKey args.sizes c u v)) ∨
        m = .del ∧ t = some (delKey args.sizes c u)) := by
  unfold consumingMoves
  cases hu : c.urc with
  | nil => simp
  | cons u l =>
    by_cases hs : u = stopStartChar
    · simp [hs]
    · simp only [if_neg hs, List.mem_append, List.mem_map, List.mem_singleton, Prod.mk.injEq,
        List.cons.injEq]
      constructor
      · rintro (⟨v, hv, rfl, rfl⟩ | ⟨rfl, rfl⟩)
        · exact ⟨u, l, ⟨rfl, rfl⟩, hs, .inl ⟨v, hv, rfl, rfl⟩⟩
        · exact ⟨u, l, ⟨rfl, rfl⟩, hs, .inr ⟨rfl, rfl⟩⟩
      · rintro ⟨_, _, ⟨rfl, rfl⟩, -, ⟨v, hv, rfl, rfl⟩ | ⟨rfl, rfl⟩⟩
        · exact .inl ⟨v, hv, rfl, rfl⟩
        · exact .inr ⟨rfl, rfl⟩

theorem final_of_mem_finalMoves {sz : Sizes} {m : Move × Option Context} (h : m ∈ finalMoves sz c) :
    m = (.final, none) := by
  unfold finalMoves at h
  split_ifs at h
  · exact List.mem_singleton.mp h
  · simp at h

theorem mem_moves_ins {v : Sym} {t : Option Context} : (Move.ins v, t) ∈ moves args c ↔
    isBold args.sizes c ∧ v ∈ args.V2 ∧ t = some (insKey args.sizes c v) := by
  have hf : (Move.ins v, t) ∉ finalMoves args.sizes c :=
    fun h => by simpa using final_of_mem_finalMoves h
  have hcons : (Move.ins v, t) ∉ consumingMoves args c := by simp [mem_consumingMoves]
  by_cases hb : isBold args.sizes c <;> simp [moves, hb, hf, boldMoves, absMoves, hcons]
  exact fun _ => eq_comm

theorem mem_moves_sub {v : Sym} {t : Option Context} : (Move.sub v, t) ∈ moves args c ↔
    isBold args.sizes c ∧ v ∈ args.V2 ∧ ∃ u l, c.urc = u :: l ∧ u ≠ stopStartChar ∧
      t = some (subKey args.sizes c u v) := by
  have hf : (Move.sub v, t) ∉ finalMoves args.sizes c :=
    fun h => by simpa using final_of_mem_finalMoves h
  by_cases hb : isBold args.sizes c
  · simp only [moves, hb, if_true, boldMoves, List.mem_append, hf, List.mem_map, Prod.mk.injEq,
      reduceCtorEq, false_and, and_false, exists_false, false_or, mem_consumingMoves,
        Move.sub.injEq, or_false, true_and]
    constructor
    · rintro ⟨u, l, hu, hs, w, hw, rfl, rfl⟩
      exact ⟨hw, u, l, hu, hs, rfl⟩
    · rintro ⟨hv, u, l, hu, hs, rfl⟩
      exact ⟨u, l, hu, hs, v, hv, rfl, rfl⟩
  · simp [moves, hb, hf, absMoves]

theorem mem_moves_del {t : Option Context} : (Move.del, t) ∈ moves args c ↔
    isBold args.sizes c ∧ ∃ u l, c.urc = u :: l ∧ u ≠ stopStartChar ∧
      t = some (delKey args.sizes c u) := by
  have hf : (Move.del, t) ∉ finalMoves args.sizes c :=
    fun h => by simpa using final_of_mem_finalMoves h
  by_cases hb : isBold args.sizes c
  · simp [moves, hb, boldMoves, hf, mem_consumingMoves]
  · simp [moves, hb, hf, absMoves]

theorem mem_moves_abs {v : Sym} {t : Option Context} : (Move.abs v, t) ∈ moves args c ↔
    ¬ isBold args.sizes c ∧ (v ∈ args.V1 ∨ v = stopStartChar) ∧
      ¬ (v = stopStartChar ∧ args.sizes.urcMax = 0) ∧ sharpAtEnd (absKey args.sizes c v).urc ∧
      t = some (absKey args.sizes c v) := by
  have hf : (Move.abs v, t) ∉ finalMoves args.sizes c :=
    fun h => by simpa using final_of_mem_finalMoves h
  have hcons : (Move.abs v, t) ∉ consumingMoves args c := by simp [mem_consumingMoves]
  by_cases hb : isBold args.sizes c
  · simp [moves, hb, hf, hcons, boldMoves]
  · simp only [moves, hb, absMoves, List.mem_append, hf, false_or, Bool.false_eq_true, if_false,
      List.mem_filterMap, List.mem_singleton, not_false_eq_true, true_and]
    constructor
    · rintro ⟨w, hw, h⟩
      split_ifs at h with h₁ h₂
      obtain ⟨rfl, rfl⟩ := by simpa using h
      exact ⟨hw, h₁, goLoop_false_iff.mp (by simpa using h₂), rfl⟩
    · rintro ⟨hv, h₁, h₂, rfl⟩
      exact ⟨v, hv, by rw [if_neg h₁, if_neg (by simpa using goLoop_false_iff.mpr h₂)]⟩

theorem target_eq_none_iff {m : Move} {t : Option Context} (h : (m, t) ∈ moves args c) :
    t = none ↔ m = .final := by
  cases m with
  | final => simp [(mem_moves_final.mp h).1]
  | ins v => simp [(mem_moves_ins.mp h).2.2]
  | sub v =>
    obtain ⟨-, -, u, l, -, -, rfl⟩ := mem_moves_sub.mp h
    simp
  | del =>
    obtain ⟨-, u, l, -, -, rfl⟩ := mem_moves_del.mp h
    simp
  | abs v => simp [(mem_moves_abs.mp h).2.2.2.2]

/-- A move has one target. -/
theorem target_unique {m : Move} {t t' : Option Context} (h : (m, t) ∈ moves args c)
    (h' : (m, t') ∈ moves args c) : t = t' := by
  cases m with
  | final => rw [(mem_moves_final.mp h).1, (mem_moves_final.mp h').1]
  | ins v => rw [(mem_moves_ins.mp h).2.2, (mem_moves_ins.mp h').2.2]
  | sub v =>
    obtain ⟨-, -, u, l, hu, -, rfl⟩ := mem_moves_sub.mp h
    obtain ⟨-, -, u', l', hu', -, rfl⟩ := mem_moves_sub.mp h'
    rw [(List.cons.inj (hu.symm.trans hu')).1]
  | del =>
    obtain ⟨-, u, l, hu, -, rfl⟩ := mem_moves_del.mp h
    obtain ⟨-, u', l', hu', -, rfl⟩ := mem_moves_del.mp h'
    rw [(List.cons.inj (hu.symm.trans hu')).1]
  | abs v => rw [(mem_moves_abs.mp h).2.2.2.2, (mem_moves_abs.mp h').2.2.2.2]

/-- The sizes and alphabets with which the program ends. -/
def Completes (args : Args) : Prop :=
  args.sizes.ulcMax ≤ 1 ∨ args.sizes.urcMax = 0 ∨ args.V1 = []

theorem target_isKey (hsz : Completes args) (hc : IsKey args c) {m : Move}
    (h : (m, some d) ∈ moves args c) : IsKey args d := by
  refine @computedKeys_isKey insertionOrder args hsz d ?_
  cases m with
  | final => simpa using (mem_moves_final.mp h).1
  | ins v =>
    obtain ⟨hb, hv, hd⟩ := mem_moves_ins.mp h
    obtain rfl := Option.some.inj hd
    exact mem_computedKeys_bold hc hb (List.mem_append_left _ (List.mem_map_of_mem hv))
  | sub v =>
    obtain ⟨hb, hv, u, l, hu, hs, hd⟩ := mem_moves_sub.mp h
    obtain rfl := Option.some.inj hd
    refine mem_computedKeys_bold hc hb (List.mem_append_right _ ?_)
    simp only [hu, if_neg hs]
    exact List.mem_append_left _ (List.mem_map_of_mem hv)
  | del =>
    obtain ⟨hb, u, l, hu, hs, hd⟩ := mem_moves_del.mp h
    obtain rfl := Option.some.inj hd
    exact mem_computedKeys_bold hc hb (by simp [hu, hs])
  | abs v =>
    obtain ⟨hb, hv, h₁, h₂, hd⟩ := mem_moves_abs.mp h
    obtain rfl := Option.some.inj hd
    refine List.mem_append_right _ (List.mem_flatMap.mpr ⟨c, mem_nonBoldKeys.mpr ⟨hc, hb⟩, ?_⟩)
    refine List.mem_filterMap.mpr ⟨v, by simpa using hv, ?_⟩
    rw [if_neg h₁, if_neg (by simpa using goLoop_false_iff.mpr h₂)]

theorem moves_nodup (hV : args.Valid) (c : Context) : (moves args c).Nodup := by
  have hfinal : (finalMoves args.sizes c).Nodup := by
    unfold finalMoves
    split_ifs <;> simp
  have hcons : (consumingMoves args c).Nodup := by
    unfold consumingMoves
    cases c.urc with
    | nil => simp
    | cons u l =>
      by_cases hs : u = stopStartChar
      · simp [hs]
      · simp only [if_neg hs]
        refine List.Nodup.append (hV.lower.nodup.map fun v w h => ?_) (by simp)
          (by simp [List.Disjoint])
        simpa using (Prod.mk.inj h).1
  have hbold : (boldMoves args c).Nodup := by
    refine List.Nodup.append (hV.lower.nodup.map fun v w h => ?_) hcons ?_
    · simpa using (Prod.mk.inj h).1
    · intro m hm hm'
      obtain ⟨v, -, rfl⟩ := List.mem_map.mp hm
      simp [mem_consumingMoves] at hm'
  have habs : (absMoves args c).Nodup := by
    have hset : (args.V1 ++ [stopStartChar]).Nodup :=
      List.Nodup.append hV.upper.nodup (List.nodup_singleton _) fun s hs h =>
        hV.upper.sharp (List.mem_singleton.mp h ▸ hs)
    refine hset.filterMap fun v w m hv hw => ?_
    simp only [Option.mem_def] at hv hw
    split_ifs at hv hw
    exact Move.abs.inj (Prod.mk.inj (Option.some.inj (hv.trans hw.symm))).1
  refine List.Nodup.append hfinal (by split_ifs <;> assumption) fun m hm hm' => ?_
  rw [final_of_mem_finalMoves hm] at hm'
  split_ifs at hm' with hb
  · have := (List.mem_append.mp hm')
    simp [mem_consumingMoves] at this
  · simp [absMoves] at hm'

/-! ### Labels -/

theorem symbolId_idIn {v : Sym} (h : v ∈ args.V1 ∨ v = stopStartChar) :
    symbolId args.symsIn v = some (idIn args v) := by
  have hsome : (symbolId args.symsIn v).isSome := symbolId_isSome h
  obtain ⟨i, hi⟩ := Option.isSome_iff_exists.mp hsome
  simp [idIn, hi]

theorem symbolId_idOut {v : Sym} (h : v ∈ args.V2) :
    symbolId args.symsOut v = some (idOut args v) := by
  have hsome : (symbolId args.symsOut v).isSome := symbolId_isSome (.inl h)
  obtain ⟨i, hi⟩ := Option.isSome_iff_exists.mp hsome
  simp [idOut, hi]

theorem idIn_ne_zero (hV : args.Unreserved) {v : Sym} (h : v ∈ args.V1 ∨ v = stopStartChar) :
    idIn args v ≠ 0 := (symbolId_ne_zero_iff (symbolId_idIn h)).mpr (hV.upper.notMem_emptyNames h)

theorem idOut_ne_zero (hV : args.Unreserved) {v : Sym} (h : v ∈ args.V2) : idOut args v ≠ 0 :=
  (symbolId_ne_zero_iff (symbolId_idOut h)).mpr (hV.lower.notMem_emptyNames (.inl h))

theorem idIn_inj (hV : args.Unreserved) {v w : Sym} (hv : v ∈ args.V1 ∨ v = stopStartChar)
    (hw : w ∈ args.V1 ∨ w = stopStartChar) (h : idIn args v = idIn args w) : v = w :=
  symbolId_inj (idIn_ne_zero hV hv) (symbolId_idIn hv) (h ▸ symbolId_idIn hw)

theorem idOut_inj (hV : args.Unreserved) {v w : Sym} (hv : v ∈ args.V2) (hw : w ∈ args.V2)
    (h : idOut args v = idOut args w) : v = w :=
  symbolId_inj (idOut_ne_zero hV hv) (symbolId_idOut hv) (h ▸ symbolId_idOut hw)

/-- Exactly the ABS moves have an input label. -/
theorem ilabel_ne_zero_iff (hV : args.Unreserved) {m : Move} {t : Option Context}
    (h : (m, t) ∈ moves args c) : m.ilabel args ≠ 0 ↔ ∃ v, m = .abs v := by
  cases m with
  | abs v => simpa [Move.ilabel] using idIn_ne_zero hV (mem_moves_abs.mp h).2.1
  | _ => simp [Move.ilabel]

/-- INS leaves the right context as it is, SUB shortens it. -/
theorem insKey_ne_subKey {u v w : Sym} {l : List Sym} (h : c.urc = u :: l) :
    insKey args.sizes c v ≠ subKey args.sizes c u w := by
  intro heq
  have := congrArg (fun k : Context => k.urc.length) heq
  simp [insKey, subKey, bump2, h] at this

/-- End points and labels of an arc determine the move that made it. -/
theorem move_unique (hV : args.Unreserved) {m m' : Move} {t : Option Context}
    (h : (m, t) ∈ moves args c) (h' : (m', t) ∈ moves args c)
    (hi : m.ilabel args = m'.ilabel args) (ho : m.olabel args = m'.olabel args) : m = m' := by
  cases m with
  | final => exact ((target_eq_none_iff h').mp ((target_eq_none_iff h).mpr rfl)).symm
  | abs v =>
    obtain ⟨w, rfl⟩ := (ilabel_ne_zero_iff hV h').mp (hi ▸ (ilabel_ne_zero_iff hV h).mpr ⟨v, rfl⟩)
    exact congrArg _ (idIn_inj hV (mem_moves_abs.mp h).2.1 (mem_moves_abs.mp h').2.1 hi)
  | ins v =>
    obtain ⟨-, hv, ht⟩ := mem_moves_ins.mp h
    have hne := idOut_ne_zero hV hv
    cases m' with
    | ins w => exact congrArg _ (idOut_inj hV hv (mem_moves_ins.mp h').2.1 ho)
    | sub w =>
      obtain ⟨-, -, u, l, hu, -, ht'⟩ := mem_moves_sub.mp h'
      exact absurd (Option.some.inj (ht.symm.trans ht')) (insKey_ne_subKey hu)
    | final => exact absurd ho hne
    | del => exact absurd ho hne
    | abs w => exact absurd ho hne
  | sub v =>
    obtain ⟨-, hv, u, l, hu, -, ht⟩ := mem_moves_sub.mp h
    have hne := idOut_ne_zero hV hv
    cases m' with
    | sub w => exact congrArg _ (idOut_inj hV hv (mem_moves_sub.mp h').2.1 ho)
    | ins w =>
      exact absurd (Option.some.inj ((mem_moves_ins.mp h').2.2.symm.trans ht)) (insKey_ne_subKey hu)
    | final => exact absurd ho hne
    | del => exact absurd ho hne
    | abs w => exact absurd ho hne
  | del =>
    cases m' with
    | del => rfl
    | final => exact (target_eq_none_iff h).mp ((target_eq_none_iff h').mpr rfl)
    | ins w => exact absurd ho.symm (idOut_ne_zero hV (mem_moves_ins.mp h').2.1)
    | sub w => exact absurd ho.symm (idOut_ne_zero hV (mem_moves_sub.mp h').2.1)
    | abs w => exact absurd hi.symm (idIn_ne_zero hV (mem_moves_abs.mp h').2.1)

/-! ### The finished transducer -/

section Finished
variable {W : Type*} [One W]

theorem getElem?_foldl_addArc (calls : List ArcCall) (F : VectorFst W) (q : ℕ) :
    (calls.foldl (fun F k => F.addArc k.src k.toArc) F).states[q]? =
      F.states[q]?.map fun s =>
        ⟨s.final, s.arcs ++ (calls.filter fun k => k.src = q).map ArcCall.toArc⟩ := by
  induction calls generalizing F with
  | nil => simp
  | cons k calls ih =>
    rw [List.foldl_cons, ih, VectorFst.addArc, List.getElem?_modify]
    by_cases hk : k.src = q
    · simp [hk, Function.comp_def]
    · simp [hk]

theorem start_foldl_addArc (calls : List ArcCall) (F : VectorFst W) :
    (calls.foldl (fun F k => F.addArc k.src k.toArc) F).start = F.start := by
  induction calls generalizing F with
  | nil => rfl
  | cons k calls ih => rw [List.foldl_cons, ih]; rfl

theorem states_machineStates (ks : List Context) : (machineStates ks : VectorFst W).states =
    ⟨some 1, []⟩ :: List.replicate ks.length ⟨none, []⟩ := by
  have hfold (F : VectorFst W) : (ks.foldl (fun F _ => F.addState) F).states =
      F.states ++ List.replicate ks.length ⟨none, []⟩ := by
    induction ks generalizing F with
    | nil => simp
    | cons k ks ih =>
      rw [List.foldl_cons, ih]
      simp [VectorFst.addState, List.replicate_succ]
  rw [machineStates, VectorFst.setFinal]
  simp only [hfold]
  simp [VectorFst.addState, VectorFst.empty]

/-- The arc of a move. -/
def moveArc (W : Type*) [One W] (ord : HashOrder) (args : Args) (c : Context)
    (m : Move × Option Context) : Arc W := (moveCall ord args c m).toArc

variable {M : Machine W}

theorem exists_arcCalls (h : contextualEdit W ord args = some M) : ∃ start calls,
    arcCalls ord args = some (start, calls) ∧
    M.fst = calls.foldl (fun F k => F.addArc k.src k.toArc)
      ((machineStates (keys ord args)).setStart start) ∧
    M.arcMap = calls.foldl (fun d k => (k.key, k.action) :: d) [] ∧
    M.stateToContext = keys ord args := by
  obtain ⟨⟨start, calls⟩, hcalls, hM⟩ := Option.map_eq_some_iff.mp h
  subst hM
  exact ⟨start, calls, hcalls, rfl, rfl, rfl⟩

theorem machine_start (h : contextualEdit W ord args = some M) :
    M.fst.start = some (stateNum ord args (startKey args.sizes)) := by
  obtain ⟨start, calls, hcalls, hfst, -⟩ := exists_arcCalls h
  rw [hfst, start_foldl_addArc, ← (arcCalls_eq hcalls).1]
  rfl

theorem src_pos_of_mem_arcCalls {start : ℕ} {calls : List ArcCall}
    (h : arcCalls ord args = some (start, calls)) {k : ArcCall} (hk : k ∈ calls) :
    ∃ c m, IsKey args c ∧ m ∈ moves args c ∧ k = moveCall ord args c m := by
  have hsrc : ∃ c, IsKey args c ∧ k.src = stateNum ord args c := by
    rw [(arcCalls_eq h).2] at hk
    simp only [List.mem_append, List.mem_flatMap, mem_keys, mem_boldKeys, mem_nonBoldKeys] at hk
    obtain (⟨c, hc, hk⟩ | ⟨c, ⟨hc, -⟩, hk⟩) | ⟨c, ⟨hc, -⟩, hk⟩ := hk <;>
      exact ⟨c, hc, src_moveCall k hk⟩
  obtain ⟨c, hc, hs⟩ := hsrc
  have hmem : k ∈ calls.filter fun k => k.src = stateNum ord args c := by simp [hk, hs]
  rw [filter_arcCalls h hc] at hmem
  obtain ⟨m, hm, rfl⟩ := List.mem_map.mp hmem
  exact ⟨c, m, hc, hm, rfl⟩

/-- State 0 is final and has no arcs. -/
theorem machine_state_zero (h : contextualEdit W ord args = some M) :
    M.fst.states[0]? = some ⟨some 1, []⟩ := by
  obtain ⟨start, calls, hcalls, hfst, -⟩ := exists_arcCalls h
  have hnil : calls.filter (fun k => k.src = 0) = [] := by
    refine List.filter_eq_nil_iff.mpr fun k hk h0 => ?_
    obtain ⟨c, m, hc, -, rfl⟩ := src_pos_of_mem_arcCalls hcalls hk
    have := stateNum_pos ord hc
    have hzero : stateNum ord args c = 0 := of_decide_eq_true h0
    omega
  rw [hfst, getElem?_foldl_addArc, hnil]
  simp [VectorFst.setStart, states_machineStates]

/-- The state of a context is not final and has the arcs of its moves. -/
theorem machine_state (h : contextualEdit W ord args = some M) (hc : IsKey args c) :
    M.fst.states[stateNum ord args c]? =
      some ⟨none, (moves args c).map (moveArc W ord args c)⟩ := by
  obtain ⟨start, calls, hcalls, hfst, -⟩ := exists_arcCalls h
  have h1 := stateNum_pos ord hc
  have h2 := stateNum_le ord hc
  obtain ⟨n, hn⟩ := Nat.exists_eq_add_of_le' h1
  rw [hfst, getElem?_foldl_addArc, filter_arcCalls hcalls hc, List.map_map]
  have hstate :
      ((machineStates (keys ord args) : VectorFst W).setStart start).states[stateNum ord args c]? =
      some ⟨none, []⟩ := by
    rw [hn] at h2 ⊢
    simp only [VectorFst.setStart, states_machineStates, List.getElem?_cons_succ]
    rw [List.getElem?_replicate, if_pos (by omega)]
  rw [hstate]
  rfl

theorem machine_numStates (h : contextualEdit W ord args = some M) :
    M.fst.states.length = (keys ord args).length + 1 := by
  obtain ⟨start, calls, hcalls, hfst, -⟩ := exists_arcCalls h
  have hlen (F : VectorFst W) :
      (calls.foldl (fun F k => F.addArc k.src k.toArc) F).states.length = F.states.length := by
    clear hcalls hfst
    induction calls generalizing F with
    | nil => rfl
    | cons k calls ih => rw [List.foldl_cons, ih, VectorFst.addArc, List.length_modify]
  rw [hfst, hlen]
  simp [VectorFst.setStart, states_machineStates]

/-- An arc that leaves a state leaves the state of a context, for one of its moves. -/
theorem exists_move_of_arc? (h : contextualEdit W ord args = some M) {e q : ℕ} {a : Arc W}
    (he : M.fst.arc? e = some (q, a)) : ∃ c m, IsKey args c ∧ q = stateNum ord args c ∧
      m ∈ moves args c ∧ a = moveArc W ord args c m := by
  obtain ⟨s, k, hs, hk, -⟩ := VectorFst.arc?_eq_some_iff.mp he
  have hq : q < (keys ord args).length + 1 := by
    rw [← machine_numStates h]
    exact (List.getElem?_eq_some_iff.mp hs).1
  rcases Nat.eq_zero_or_pos q with rfl | hpos
  · rw [machine_state_zero h] at hs
    simp [← Option.some.inj hs] at hk
  · obtain ⟨c, hc, rfl⟩ := exists_stateNum ord hpos (by omega : q ≤ (keys ord args).length)
    rw [machine_state h hc] at hs
    rw [← Option.some.inj hs] at hk
    have hmem := List.mem_of_getElem? hk
    obtain ⟨m, hm, rfl⟩ := List.mem_map.mp hmem
    exact ⟨c, m, hc, rfl, hm, rfl⟩

theorem exists_arc?_of_move (h : contextualEdit W ord args = some M) (hc : IsKey args c)
    {m : Move × Option Context} (hm : m ∈ moves args c) :
    ∃ e, M.fst.arc? e = some (stateNum ord args c, moveArc W ord args c m) := by
  obtain ⟨k, hk⟩ := List.getElem?_of_mem hm
  exact ⟨_, VectorFst.arc?_eq_some_iff.mpr ⟨_, k, machine_state h hc, by simp [hk], rfl⟩⟩

theorem targetNum_inj {t t' : Option Context} (ht : ∀ d ∈ t, IsKey args d)
    (ht' : ∀ d ∈ t', IsKey args d) (h : targetNum ord args t = targetNum ord args t') : t = t' := by
  cases t with
  | none =>
    cases t' with
    | none => rfl
    | some d' =>
      have h0 : 0 = stateNum ord args d' := h
      have := stateNum_pos ord (ht' d' rfl)
      omega
  | some d =>
    cases t' with
    | none =>
      have h0 : stateNum ord args d = 0 := h
      have := stateNum_pos ord (ht d rfl)
      omega
    | some d' => exact congrArg some (stateNum_inj ord (ht d rfl) (ht' d' rfl) h)

/-- The arcs of a state are pairwise different in their end point or a label. -/
theorem moveArc_inj (hV : args.Unreserved) (hsz : Completes args) (hc : IsKey args c)
    {m m' : Move × Option Context} (hm : m ∈ moves args c) (hm' : m' ∈ moves args c)
    (h : moveArc W ord args c m = moveArc W ord args c m') : m = m' := by
  obtain ⟨v, t⟩ := m
  obtain ⟨v', t'⟩ := m'
  simp only [moveArc, ArcCall.toArc, moveCall, Arc.mk.injEq, true_and] at h
  have ht : t = t' := targetNum_inj (fun d hd => target_isKey hsz hc (hd ▸ hm))
    (fun d hd => target_isKey hsz hc (hd ▸ hm')) h.2.2
  subst ht
  rw [move_unique hV hm hm' h.1 h.2.1]

theorem arc_unique (h : contextualEdit W ord args = some M) (hV : args.Valid) (hsz : Completes args)
    (hc : IsKey args c) {m : Move × Option Context} (hm : m ∈ moves args c) {e e' : ℕ}
    (he : M.fst.arc? e = some (stateNum ord args c, moveArc W ord args c m))
    (he' : M.fst.arc? e' = some (stateNum ord args c, moveArc W ord args c m)) : e = e' := by
  have hpos {e : ℕ} (he : M.fst.arc? e = some (stateNum ord args c, moveArc W ord args c m)) :
      ∃ k, (moves args c)[k]? = some m ∧ e = M.fst.firstArc (stateNum ord args c) + k := by
    obtain ⟨s, k, hs, hk, hek⟩ := VectorFst.arc?_eq_some_iff.mp he
    rw [machine_state h hc] at hs
    rw [← Option.some.inj hs, List.getElem?_map, Option.map_eq_some_iff] at hk
    obtain ⟨m', hm', heq⟩ := hk
    rw [moveArc_inj hV.unreserved hsz hc (List.mem_of_getElem? hm') hm heq] at hm'
    exact ⟨k, hm', hek⟩
  obtain ⟨k, hk, rfl⟩ := hpos he
  obtain ⟨k', hk', rfl⟩ := hpos he'
  obtain ⟨hlt, hget⟩ := List.getElem?_eq_some_iff.mp hk
  obtain ⟨hlt', hget'⟩ := List.getElem?_eq_some_iff.mp hk'
  rw [(moves_nodup hV c).getElem_inj_iff.mp (hget.trans hget'.symm)]

/-! ### The dictionary of actions -/

theorem foldl_arcMap (calls : List ArcCall) (d : List ((ℕ × ℕ × ℤ × ℤ) × Action)) :
    calls.foldl (fun d k => (k.key, k.action) :: d) d =
      (calls.map fun k => (k.key, k.action)).reverse ++ d := by
  induction calls generalizing d with
  | nil => rfl
  | cons k calls ih => simp [ih]

theorem moveCall_mem_arcCalls {start : ℕ} {calls : List ArcCall}
    (h : arcCalls ord args = some (start, calls)) (hc : IsKey args c) {m : Move × Option Context}
    (hm : m ∈ moves args c) : moveCall ord args c m ∈ calls := by
  have hf : moveCall ord args c m ∈ calls.filter fun k => k.src = stateNum ord args c := by
    rw [filter_arcCalls h hc]
    exact List.mem_map_of_mem hm
  exact (List.mem_filter.mp hf).1

/-- Every arc has an entry in `arc_map`. -/
theorem arcMap_isSome (h : contextualEdit W ord args = some M) (hc : IsKey args c)
    {m : Move × Option Context} (hm : m ∈ moves args c) :
    (M.arcMap.lookup (moveCall ord args c m).key).isSome := by
  obtain ⟨start, calls, hcalls, -, hmap, -⟩ := exists_arcCalls h
  rw [lookup_isSome_iff_mem, hmap, foldl_arcMap]
  simp only [List.append_nil, List.map_reverse, List.mem_reverse, List.map_map, List.mem_map]
  exact ⟨_, moveCall_mem_arcCalls hcalls hc hm, rfl⟩

/-- The entry was made for a move with the same end points and labels. -/
theorem exists_move_of_arcMap (h : contextualEdit W ord args = some M) (hsz : Completes args)
    (hc : IsKey args c) {m : Move} {t : Option Context} (hm : (m, t) ∈ moves args c) :
    ∃ m', (m', t) ∈ moves args c ∧ m'.ilabel args = m.ilabel args ∧ m'.olabel args = m.olabel args ∧
      M.arcMap.lookup (moveCall ord args c (m, t)).key = some m'.action := by
  obtain ⟨start, calls, hcalls, -, hmap, -⟩ := exists_arcCalls h
  obtain ⟨act, hact⟩ := Option.isSome_iff_exists.mp (arcMap_isSome h hc hm)
  have hin := mem_of_lookup_eq_some hact
  rw [hmap, foldl_arcMap, List.append_nil, List.mem_reverse, List.mem_map] at hin
  obtain ⟨k, hk, hkey⟩ := hin
  obtain ⟨c', ⟨m', t'⟩, hc', hm', rfl⟩ := src_pos_of_mem_arcCalls hcalls hk
  obtain ⟨hkk, rfl⟩ := Prod.mk.inj hkey
  simp only [ArcCall.key, moveCall, Prod.mk.injEq] at hkk
  obtain ⟨hsrc, hdst, hi, ho⟩ := hkk
  obtain rfl := stateNum_inj ord hc' hc hsrc
  obtain rfl : t' = t := targetNum_inj (fun d hd => target_isKey hsz hc (hd ▸ hm'))
    (fun d hd => target_isKey hsz hc (hd ▸ hm)) hdst
  exact ⟨m', hm', hi, ho, hact⟩

/-- `arc_map` holds the action of every arc. -/
theorem arcMap_lookup (h : contextualEdit W ord args = some M) (hV : args.Unreserved)
    (hsz : Completes args) (hc : IsKey args c) {m : Move × Option Context} (hm : m ∈ moves args c) :
    M.arcMap.lookup (moveCall ord args c m).key = some m.1.action := by
  obtain ⟨m', hm', hi, ho, hact⟩ := exists_move_of_arcMap h hsz hc hm
  rw [hact, move_unique hV hm' hm hi ho]

end Finished

end StochasticEdit.Generator
