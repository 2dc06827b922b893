import StochasticEdit.Generator.Records
import StochasticEdit.Generator.Relation
import StochasticEdit.Generator.Sliding

/-! The states reachable from the start state. The key of the start state has one
boundary symbol in each left window, whatever the sizes are, so it has full left
windows exactly if none of them is longer than one symbol. -/

namespace StochasticEdit

/-- The states reachable from the start state. -/
inductive Wfst.VectorFst.Reachable {W : Type*} (F : VectorFst W) : ℕ → Prop
  | start {q : ℕ} : F.start = some q → Reachable F q
  | step {e q : ℕ} {a : Arc W} : Reachable F q → F.arc? e = some (q, a) → Reachable F a.nextstate

namespace Generator

open Wfst

variable {W : Type*} {ord : HashOrder} {args : Args} {c d : Context}

/-- An INS, SUB or DEL arc leaves the state. -/
def Machine.HasEditArc (M : Machine W) (q : ℕ) : Prop :=
  ∃ e a act, M.fst.arc? e = some (q, a) ∧ M.action? e = some act ∧ act ∈ [Action.INS, .SUB, .DEL]

/-- A context state has full left windows, and with a full right window it is one of
the bold states and has edit arcs. -/
def Machine.Full (ord : HashOrder) (args : Args) (M : Machine W) (q : ℕ) : Prop :=
  ∃ c, M.context? q = some (some c) ∧ c.FullLeft args.sizes ∧
    (c.urc.length = args.sizes.urcMax →
      c ∈ boldKeys ord args.sizes (keys ord args) ∧ M.HasEditArc q)

variable [One W] {M : Machine W}

/-- A property of contexts that all moves keep holds of every reachable state. -/
theorem reachable_induction (h : contextualEdit W ord args = some M) (hsz : Completes args)
    {P : Context → Prop} (hstart : P (startKey args.sizes))
    (hstep : ∀ c d m, IsKey args c → P c → (m, some d) ∈ moves args c → P d) {q : ℕ}
    (hq : M.fst.Reachable q) : q = 0 ∨ ∃ c, IsKey args c ∧ q = stateNum ord args c ∧ P c := by
  induction hq with
  | start hs =>
    rw [machine_start h, Option.some.injEq] at hs
    exact .inr ⟨_, startKey_isKey, hs.symm, hstart⟩
  | step _ he ih =>
    obtain ⟨c, ⟨m, t⟩, hc, hq, hm, rfl⟩ := exists_move_of_arc? h he
    cases t with
    | none => exact .inl rfl
    | some d =>
      rcases ih with h0 | ⟨c', hc', hq', hP⟩
      · have := stateNum_pos ord hc
        omega
      · obtain rfl := stateNum_inj ord hc hc' (hq.symm.trans hq')
        exact .inr ⟨d, target_isKey hsz hc hm, rfl, hstep c d m hc hP hm⟩

theorem reachable_start (h : contextualEdit W ord args = some M) :
    M.fst.Reachable (stateNum ord args (startKey args.sizes)) := .start (machine_start h)

theorem reachable_move (h : contextualEdit W ord args = some M) (hc : IsKey args c) {m : Move}
    (hm : (m, some d) ∈ moves args c) (hq : M.fst.Reachable (stateNum ord args c)) :
    M.fst.Reachable (stateNum ord args d) := by
  obtain ⟨e, he⟩ := exists_arc?_of_move h hc hm
  exact .step hq he

theorem startKey_fullLeft_iff (sz : Sizes) :
    (startKey sz).FullLeft sz ↔ sz.ulcMax ≤ 1 ∧ sz.llcMax ≤ 1 := by
  unfold Context.FullLeft startKey
  split_ifs <;> simp <;> omega

/-! ### Edit arcs -/

/-- An edit arc was made for an edit move, whatever the alphabets are. -/
theorem Machine.HasEditArc.exists_move (h : contextualEdit W ord args = some M)
    (hsz : Completes args) {q : ℕ} (hq : M.HasEditArc q) :
    ∃ c m t, IsKey args c ∧ q = stateNum ord args c ∧
      (m, t) ∈ moves args c ∧ m.action ∈ [Action.INS, .SUB, .DEL] := by
  obtain ⟨e, a, act, he, hact, hmem⟩ := hq
  obtain ⟨c, ⟨m, t⟩, hc, rfl, hm, rfl⟩ := exists_move_of_arc? h he
  obtain ⟨m', hm', -, -, hlookup⟩ := exists_move_of_arcMap h hsz hc hm
  have haction : M.action? e = M.arcMap.lookup (moveCall ord args c (m, t)).key := by
    rw [Machine.action?, he]
    rfl
  rw [haction, hlookup, Option.some.injEq] at hact
  exact ⟨c, m', t, hc, rfl, hm', hact ▸ hmem⟩

/-- The arcs of a bold state for its edits are edit arcs. -/
theorem hasEditArc_of_isBold (h : contextualEdit W ord args = some M) (hsz : Completes args)
    (hne : args.V2 ≠ []) (hc : IsKey args c) (hb : isBold args.sizes c) :
    M.HasEditArc (stateNum ord args c) := by
  obtain ⟨v, hv⟩ := List.exists_mem_of_ne_nil _ hne
  have hm := mem_moves_ins.mpr ⟨hb, hv, rfl⟩
  obtain ⟨e, he⟩ := exists_arc?_of_move h hc hm
  obtain ⟨m', hm', -, -, hlookup⟩ := exists_move_of_arcMap h hsz hc hm
  have haction : M.action? e = some m'.action := by
    rw [Machine.action?, he]
    exact hlookup
  refine ⟨e, _, m'.action, he, haction, ?_⟩
  -- neither a FINAL nor an ABS arc has the key of the INS arc
  cases m' with
  | final => simpa using (mem_moves_final.mp hm').1
  | abs v => exact absurd hb (mem_moves_abs.mp hm').1
  | _ => simp [Move.action]

/-- The start state after reading `n` boundary symbols. -/
def paddedKey (sz : Sizes) (n : ℕ) : Context :=
  { startKey sz with urc := List.replicate n stopStartChar }

theorem paddedKey_isKey {n : ℕ} (hn : n ≤ args.sizes.urcMax) :
    IsKey args (paddedKey args.sizes n) := by
  have hs : IsKey args (startKey args.sizes) := startKey_isKey
  refine ⟨⟨hs.ulc_sharp, ?_, hs.ulc_nonempty, hs.llc_nonempty⟩, hs.ulc_length, by simpa [paddedKey],
    hs.llc_length, hs.ulc_mem, ?_, hs.llc_mem⟩
  · rw [sharpAtEnd_iff]
    simp [paddedKey, List.pairwise_replicate]
  · simp +contextual [paddedKey]

theorem reachable_paddedKey (h : contextualEdit W ord args = some M) {n : ℕ}
    (hn : n ≤ args.sizes.urcMax) :
    M.fst.Reachable (stateNum ord args (paddedKey args.sizes n)) := by
  induction n with
  | zero =>
    have hkey : paddedKey args.sizes 0 = startKey args.sizes := by
      rw [paddedKey, List.replicate_zero, ← startKey_urc args.sizes]
    rw [hkey]
    exact reachable_start h
  | succ n ih =>
    have hlt : (paddedKey args.sizes n).urc.length < args.sizes.urcMax := by
      simpa [paddedKey] using Nat.lt_of_succ_le hn
    have habs : absKey args.sizes (paddedKey args.sizes n) stopStartChar =
        paddedKey args.sizes (n + 1) := by
      rw [absKey, addReverse_of_lt hlt]
      simp [paddedKey, List.replicate_succ']
    refine reachable_move h (paddedKey_isKey (by omega)) (m := .abs stopStartChar) ?_
      (ih (by omega))
    refine mem_moves_abs.mpr ⟨fun hb => hlt.ne (isBold_iff.mp hb).2.1, .inr rfl, by omega, ?_,
      congrArg some habs.symm⟩
    rw [habs]
    exact (paddedKey_isKey hn).urc_sharp

/-- Without lower symbols the state that has read nothing but boundary symbols has no
edit arcs. -/
theorem not_hasEditArc_paddedKey (h : contextualEdit W ord args = some M) (hsz : Completes args)
    (hV2 : args.V2 = []) {n : ℕ} (hn : n ≤ args.sizes.urcMax) :
    ¬ M.HasEditArc (stateNum ord args (paddedKey args.sizes n)) := by
  intro hedit
  obtain ⟨c, m, t, hc, hq, hm, hmem⟩ := hedit.exists_move h hsz
  obtain rfl := stateNum_inj ord (paddedKey_isKey hn) hc hq
  have hsharp : ∀ u ∈ (paddedKey args.sizes n).urc, u = stopStartChar :=
    fun u hu => List.eq_of_mem_replicate hu
  cases m with
  | final => simp [Move.action] at hmem
  | ins v => simpa [hV2] using (mem_moves_ins.mp hm).2.1
  | sub v => simpa [hV2] using (mem_moves_sub.mp hm).2.1
  | del =>
    obtain ⟨-, u, l, hu, hs, -⟩ := mem_moves_del.mp hm
    exact hs (hsharp u (by simp [hu]))
  | abs v => simp [Move.action] at hmem

/-- Every reachable context state has full left windows, and with a full right window
edit arcs, exactly when no left window is longer than one symbol and there are lower
symbols to write. -/
theorem reachable_full_iff (h : contextualEdit W ord args = some M) (hV : args.Alphabets) :
    (∀ q, M.fst.Reachable q → q ≠ 0 → M.Full ord args q) ↔
      args.sizes.ulcMax ≤ 1 ∧ args.sizes.llcMax ≤ 1 ∧ args.V2 ≠ [] := by
  have hsz := completes_of_sharp h hV.upper.sharp
  have hpos (c : Context) (hc : IsKey args c) : stateNum ord args c ≠ 0 := by
    have := stateNum_pos ord hc
    omega
  constructor
  · intro hfull
    obtain ⟨c, hctx, hleft, -⟩ := hfull _ (reachable_start h) (hpos _ startKey_isKey)
    rw [context?_stateNum h startKey_isKey] at hctx
    obtain rfl := Option.some.inj (Option.some.inj hctx)
    obtain ⟨hu, hl⟩ := (startKey_fullLeft_iff _).mp hleft
    refine ⟨hu, hl, fun hV2 => ?_⟩
    have hkey : IsKey args (paddedKey args.sizes args.sizes.urcMax) := paddedKey_isKey le_rfl
    obtain ⟨c, hctx, -, hedit⟩ := hfull _ (reachable_paddedKey h le_rfl) (hpos _ hkey)
    rw [context?_stateNum h hkey] at hctx
    obtain rfl := Option.some.inj (Option.some.inj hctx)
    exact not_hasEditArc_paddedKey h hsz hV2 le_rfl (hedit (by simp [paddedKey])).2
  · rintro ⟨hu, hl, hne⟩ q hq hq0
    obtain ⟨c, hc, rfl, -⟩ := (reachable_induction (P := fun _ => True) h hsz trivial
      (fun _ _ _ _ _ _ => trivial) hq).resolve_left hq0
    refine ⟨c, context?_stateNum h hc, ⟨length_ulc hu hc, length_llc hl hc⟩, fun hlen => ?_⟩
    have hb := (isBold_iff_length_urc hu hl hc).mpr hlen
    exact ⟨mem_boldKeys.mpr ⟨hc, hb⟩, hasEditArc_of_isBold h hsz hne hc hb⟩

theorem reachable_full_one_two_one : ∃ M : Machine ℚ,
    contextualEdit ℚ insertionOrder (smallArgs ⟨1, 2, 1⟩) = some M ∧
      ((∀ q, M.fst.Reachable q → q ≠ 0 → M.Full insertionOrder (smallArgs ⟨1, 2, 1⟩) q) ↔
        1 ≤ 1 ∧ 1 ≤ 1 ∧ ["b"] ≠ []) := by
  have hsz : Completes (smallArgs ⟨1, 2, 1⟩) := .inl le_rfl
  obtain ⟨M, hM⟩ := exists_contextualEdit ℚ insertionOrder hsz
  exact ⟨M, hM, reachable_full_iff hM (smallArgs_valid _).toAlphabets⟩

/-- One upper left, one upper right and two lower left symbols. -/
theorem not_reachable_full : ¬ ∀ (ord : HashOrder) (args : Args) (M : Machine ℚ), args.Alphabets →
    1 ≤ args.sizes.urcMax → contextualEdit ℚ ord args = some M →
    ∀ q, M.fst.Reachable q → q ≠ 0 → M.Full ord args q := by
  intro hall
  have hsz : Completes (smallArgs ⟨1, 1, 2⟩) := .inl le_rfl
  obtain ⟨M, hM⟩ := exists_contextualEdit ℚ insertionOrder hsz
  have hkey : IsKey (smallArgs ⟨1, 1, 2⟩) (startKey ⟨1, 1, 2⟩) := startKey_isKey
  have hpos := stateNum_pos insertionOrder hkey
  obtain ⟨c, hctx, hleft, -⟩ := hall insertionOrder _ M (smallArgs_valid _).toAlphabets le_rfl hM _
    (reachable_start hM) (by simp only [smallArgs] at hpos ⊢; omega)
  rw [context?_stateNum hM startKey_isKey] at hctx
  obtain rfl := Option.some.inj (Option.some.inj hctx)
  exact absurd ((startKey_fullLeft_iff _).mp hleft) (by decide)

end Generator

end StochasticEdit
