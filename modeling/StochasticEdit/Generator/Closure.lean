import StochasticEdit.Generator.Moves
import StochasticEdit.Generator.Symbols

/-! Closure of the construction: the sizes and alphabets for which every computed
key is enumerated, so that no lookup raises `KeyError`. The filter on upper left
contexts wants the boundary symbols in front, and SUB and DEL push the consumed
symbol in front of them; with two or more upper left symbols these disagree. -/

namespace StochasticEdit.Generator

variable {ord : HashOrder} {args : Args}

theorem goLoop_eq (go seen : Bool) (t : List Sym) :
    goLoop go seen t = (go || !sharpAtEndLoop seen t) := by
  induction t generalizing go seen with
  | nil => simp [goLoop, sharpAtEndLoop]
  | cons i t ih =>
    by_cases hi : i = stopStartChar
    · simp [goLoop, sharpAtEndLoop, hi, ih]
    · cases seen <;> simp [goLoop, sharpAtEndLoop, hi, ih]

theorem goLoop_false_iff {t : List Sym} : goLoop false false t = false ↔ sharpAtEnd t := by
  simp [goLoop_eq, sharpAtEnd]

theorem isBold_iff {sz : Sizes} {c : Context} : isBold sz c ↔
    c.ulc.length = sz.ulcMax ∧ c.urc.length = sz.urcMax ∧ c.llc.length = sz.llcMax := by
  simp [isBold, and_assoc]

/-! ### Targets that are keys -/

theorem startKey_isKey : IsKey args (startKey args.sizes) := by
  have h₁ : sharpAtBeginning [stopStartChar] := sharpAtBeginning_of_length_le_one le_rfl
  have h₂ : sharpAtBeginning [] := sharpAtBeginning_of_length_le_one (by simp)
  have h₃ : sharpAtEnd [] := by simp [sharpAtEnd_iff]
  unfold startKey
  split_ifs with hu hl hl <;>
    exact ⟨⟨by assumption, h₃, by simp; try omega, by simp; try omega⟩, by simp; try omega,
      by simp, by simp; try omega, by simp, by simp, by simp⟩

theorem insKey_isKey {c : Context} (hc : IsKey args c) (hb : isBold args.sizes c) {v : Sym}
    (hv : v ∈ args.V2) : IsKey args (insKey args.sizes c v) := by
  obtain ⟨-, -, hlen⟩ := isBold_iff.mp hb
  have hbump := length_bump hlen v
  refine ⟨⟨hc.ulc_sharp, hc.urc_sharp, hc.ulc_nonempty,
    fun h => hbump.symm.trans (congrArg List.length h)⟩, hc.ulc_length,
    hc.urc_length, hbump.le, hc.ulc_mem, hc.urc_mem, fun s hs => ?_⟩
  rcases List.mem_cons.mp (List.mem_of_mem_take hs) with rfl | hs
  · exact .inl hv
  · exact hc.llc_mem s (List.mem_of_mem_drop hs)

theorem sharpAtEnd_bump2 {urc : List Sym} (h : sharpAtEnd urc) : sharpAtEnd (bump2 urc) := by
  rw [sharpAtEnd_iff] at h ⊢
  exact h.drop

/-- Consuming the front of the right context keeps its part of the key. -/
theorem bump2_urc {c : Context} (hc : IsKey args c) :
    sharpAtEnd (bump2 c.urc) ∧ (bump2 c.urc).length ≤ args.sizes.urcMax ∧
      ∀ s ∈ bump2 c.urc, s ∈ args.V1 ∨ s = stopStartChar := by
  refine ⟨sharpAtEnd_bump2 hc.urc_sharp, ?_, fun s hs => hc.urc_mem s (List.mem_of_mem_drop hs)⟩
  have := hc.urc_length
  simp only [bump2, List.length_drop]
  omega

/-- Pushing a consumed symbol onto a full upper left context keeps its part of the key, if that
holds one symbol at most. -/
theorem add_ulc {c : Context} (hc : IsKey args c) (hsz : args.sizes.ulcMax ≤ 1) {w : List Sym}
    (hw : ∀ s ∈ w, s ∈ c.ulc) {u : Sym} (hu : u ∈ args.V1 ∨ u = stopStartChar)
    (hlen : (add w u args.sizes.ulcMax).length = args.sizes.ulcMax) :
    sharpAtBeginning (add w u args.sizes.ulcMax) ∧
      (add w u args.sizes.ulcMax = [] → args.sizes.ulcMax = 0) ∧
      ∀ s ∈ add w u args.sizes.ulcMax, s ∈ args.V1 ∨ s = stopStartChar := by
  refine ⟨sharpAtBeginning_of_length_le_one (hlen.trans_le hsz),
    fun h => hlen.symm.trans (congrArg List.length h), fun s hs => ?_⟩
  rcases List.mem_cons.mp (List.mem_of_mem_take hs) with rfl | hs
  · exact hu
  · exact hc.ulc_mem s (hw s hs)

theorem delKey_isKey {c : Context} (hc : IsKey args c) (hb : isBold args.sizes c)
    (hsz : args.sizes.ulcMax ≤ 1) {u : Sym} (hu : u ∈ args.V1 ∨ u = stopStartChar) :
    IsKey args (delKey args.sizes c u) := by
  have hlen := length_add (isBold_iff.mp hb).1 u
  obtain ⟨hbegin, hempty, hulc⟩ := add_ulc hc hsz (fun _ => id) hu hlen
  obtain ⟨hsharp, hurc, hmem⟩ := bump2_urc hc
  exact ⟨⟨hbegin, hsharp, hempty, hc.llc_nonempty⟩, hlen.le, hurc, hc.llc_length, hulc, hmem,
    hc.llc_mem⟩

theorem subKey_isKey {c : Context} (hc : IsKey args c) (hb : isBold args.sizes c)
    (hsz : args.sizes.ulcMax ≤ 1) {u v : Sym} (hu : u ∈ args.V1 ∨ u = stopStartChar)
    (hv : v ∈ args.V2) : IsKey args (subKey args.sizes c u v) := by
  have hlen := length_add_bump2 (isBold_iff.mp hb).1 u
  obtain ⟨hbegin, hempty, hulc⟩ := add_ulc hc hsz (fun _ => List.mem_of_mem_drop) hu hlen
  obtain ⟨hsharp, hurc, hmem⟩ := bump2_urc hc
  have hins := insKey_isKey hc hb hv
  exact ⟨⟨hbegin, hsharp, hempty, hins.llc_nonempty⟩, hlen.le, hurc, hins.llc_length, hulc, hmem,
    hins.llc_mem⟩

theorem absKey_isKey {c : Context} (hc : IsKey args c) {v : Sym}
    (hv : v ∈ args.V1 ∨ v = stopStartChar) (hgo : sharpAtEnd (absKey args.sizes c v).urc) :
    IsKey args (absKey args.sizes c v) := by
  refine ⟨⟨hc.ulc_sharp, hgo, hc.ulc_nonempty, hc.llc_nonempty⟩, hc.ulc_length, ?_,
    hc.llc_length, hc.ulc_mem, fun s hs => ?_, hc.llc_mem⟩
  · simp [absKey, addReverse]
  · rcases List.mem_append.mp (List.mem_of_mem_take hs) with hs | hs
    · exact hc.urc_mem s hs
    · rwa [List.mem_singleton.mp hs]

/-! ### The program ends without an exception -/

/-- Every computed key is found, and the program runs to its end with arcs into
enumerated states only. -/
def Closed (ord : HashOrder) (args : Args) : Prop :=
  (∀ c ∈ computedKeys ord args, ((allLookup (keys ord args)).lookup c).isSome) ∧
  ∃ start calls, arcCalls ord args = some (start, calls) ∧
    ∀ k ∈ calls, k.dst ≤ (keys ord args).length

theorem isSome_bind_singleton {β : Type} {x y : Option ℕ} {z : Option ℤ} {f : ℕ → ℕ → ℤ → β} :
    (do let a ← x; let b ← y; let i ← z; return [f a b i] : Option (List β)).isSome ↔
      x.isSome ∧ y.isSome ∧ z.isSome := by
  cases x <;> cases y <;> cases z <;> simp

theorem mem_computedKeys_bold {c d : Context} (hc : IsKey args c) (hb : isBold args.sizes c)
    (hd : d ∈ args.V2.map (insKey args.sizes c) ++
      match c.urc with
      | [] => []
      | u :: _ => if u = stopStartChar then []
        else args.V2.map (subKey args.sizes c u) ++ [delKey args.sizes c u]) :
    d ∈ computedKeys ord args := by
  refine List.mem_append_left _ (List.mem_cons_of_mem _ (List.mem_flatMap.mpr ⟨c, ?_, hd⟩))
  exact mem_boldKeys.mpr ⟨hc, hb⟩

theorem boldCalls_isSome (h : ∀ c ∈ computedKeys ord args, IsKey args c) {c : Context}
    (hc : IsKey args c) (hb : isBold args.sizes c) :
    (boldCalls args (allLookup (keys ord args)) c).isSome := by
  have hmem : ∀ d, _ → d ∈ computedKeys ord args := fun d => mem_computedKeys_bold hc hb
  have hins : (insCalls args (allLookup (keys ord args)) c).isSome := by
    refine forEach_isSome_iff.mpr fun v hv => isSome_bind_singleton.mpr
      ⟨lookup_isSome_iff.mpr hc, lookup_isSome_iff.mpr (h _ (hmem _ ?_)), symbolId_isSome (.inl hv)⟩
    exact List.mem_append_left _ (List.mem_map_of_mem hv)
  have hsub : (subCalls args (allLookup (keys ord args)) c).isSome := by
    refine forEach_isSome_iff.mpr fun v hv => ?_
    cases hu : c.urc with
    | nil => rfl
    | cons u t =>
      by_cases hs : u = stopStartChar
      · simp [hs]
      · simp only [if_neg hs]
        refine isSome_bind_singleton.mpr ⟨lookup_isSome_iff.mpr hc,
          lookup_isSome_iff.mpr (h _ (hmem _ ?_)), symbolId_isSome (.inl hv)⟩
        simp only [hu, if_neg hs]
        exact List.mem_append_right _ (List.mem_append_left _ (List.mem_map_of_mem hv))
  have hdel : (delCalls args (allLookup (keys ord args)) c).isSome := by
    unfold delCalls
    cases hu : c.urc with
    | nil => rfl
    | cons u t =>
      by_cases hs : u = stopStartChar
      · simp [hs]
      · have hdel := h (delKey args.sizes c u) (hmem _ (by simp [hu, hs]))
        simp [hs, lookup_key ord hc, lookup_key ord hdel]
  obtain ⟨i, hi⟩ := Option.isSome_iff_exists.mp hins
  obtain ⟨s, hs⟩ := Option.isSome_iff_exists.mp hsub
  obtain ⟨d, hd⟩ := Option.isSome_iff_exists.mp hdel
  simp [boldCalls, hi, hs, hd]

theorem absCalls_isSome (h : ∀ c ∈ computedKeys ord args, IsKey args c) {c : Context}
    (hc : IsKey args c) (hb : ¬ isBold args.sizes c) :
    (absCalls args (allLookup (keys ord args)) c).isSome := by
  refine forEach_isSome_iff.mpr fun v hv => ?_
  split_ifs with h₁ h₂
  · rfl
  · rfl
  · refine isSome_bind_singleton.mpr ⟨lookup_isSome_iff.mpr hc, lookup_isSome_iff.mpr (h _ ?_),
      symbolId_isSome (by simpa using hv)⟩
    refine List.mem_append_right _ (List.mem_flatMap.mpr ⟨c, mem_nonBoldKeys.mpr ⟨hc, hb⟩, ?_⟩)
    exact List.mem_filterMap.mpr ⟨v, hv, by rw [if_neg h₁, if_neg h₂]⟩

/-- Without a missing key there is no exception. -/
theorem arcCalls_isSome (h : ∀ c ∈ computedKeys ord args, IsKey args c) :
    (arcCalls ord args).isSome := by
  have hbold : (forEach (boldCalls args (allLookup (keys ord args)))
      (boldKeys ord args.sizes (keys ord args))).isSome :=
    forEach_isSome_iff.mpr fun c hc =>
      boldCalls_isSome h (mem_boldKeys.mp hc).1 (mem_boldKeys.mp hc).2
  have habs : (forEach (absCalls args (allLookup (keys ord args)))
      (nonBoldKeys ord args.sizes (keys ord args))).isSome :=
    forEach_isSome_iff.mpr fun c hc =>
      absCalls_isSome h (mem_nonBoldKeys.mp hc).1 (mem_nonBoldKeys.mp hc).2
  have hs : IsKey args (startKey args.sizes) := startKey_isKey
  obtain ⟨b, hb⟩ := Option.isSome_iff_exists.mp hbold
  obtain ⟨n, hn⟩ := Option.isSome_iff_exists.mp habs
  simp [arcCalls, lookup_key ord hs, hb, hn]

/-- Every target of a completed construction is a state. -/
theorem dst_le_of_arcCalls {start : ℕ} {calls : List ArcCall}
    (h : arcCalls ord args = some (start, calls)) :
    ∀ k ∈ calls, k.dst ≤ (keys ord args).length := by
  have hnum (c : Context) : stateNum ord args c ≤ (keys ord args).length := by
    cases hl : (allLookup (keys ord args)).lookup c with
    | none => simp [stateNum, hl]
    | some n => exact stateNum_le ord (lookup_isSome_iff.mp (Option.isSome_iff_exists.mpr ⟨n, hl⟩))
  have hcall (c : Context) (l : List (Move × Option Context)) :
      ∀ k ∈ l.map (moveCall ord args c), k.dst ≤ (keys ord args).length := by
    intro k hk
    obtain ⟨⟨m, t⟩, -, rfl⟩ := List.mem_map.mp hk
    cases t with
    | none => exact Nat.zero_le _
    | some d => exact hnum d
  rw [(arcCalls_eq h).2]
  intro k hk
  simp only [List.mem_append, List.mem_flatMap] at hk
  obtain (⟨c, -, hk⟩ | ⟨c, -, hk⟩) | ⟨c, -, hk⟩ := hk <;> exact hcall _ _ k hk

theorem closed_of_computedKeys (h : ∀ c ∈ computedKeys ord args, IsKey args c) :
    Closed ord args := by
  refine ⟨fun c hc => lookup_isSome_iff.mpr (h c hc), ?_⟩
  obtain ⟨⟨start, calls⟩, heq⟩ := Option.isSome_iff_exists.mp (arcCalls_isSome h)
  exact ⟨start, calls, heq, dst_le_of_arcCalls heq⟩

/-- With at most one upper left symbol, or nothing to consume, no key is missing. -/
theorem computedKeys_isKey (hsz : args.sizes.ulcMax ≤ 1 ∨ args.sizes.urcMax = 0 ∨ args.V1 = []) :
    ∀ c ∈ computedKeys ord args, IsKey args c := by
  intro d hd
  simp only [computedKeys, List.mem_append, List.mem_cons, List.mem_flatMap, mem_boldKeys,
    mem_nonBoldKeys] at hd
  obtain (rfl | ⟨c, ⟨hc, hb⟩, hd | hd⟩) | ⟨c, ⟨hc, hb⟩, hd⟩ := hd
  · exact startKey_isKey
  · obtain ⟨v, hv, rfl⟩ := List.mem_map.mp hd
    exact insKey_isKey hc hb hv
  · cases hu : c.urc with
    | nil => simp [hu] at hd
    | cons u t =>
      by_cases hs : u = stopStartChar
      · simp [hu, hs] at hd
      have humem : u ∈ args.V1 ∨ u = stopStartChar := hc.urc_mem u (by simp [hu])
      have hle : args.sizes.ulcMax ≤ 1 := by
        rcases hsz with h | h | h
        · exact h
        · have := (isBold_iff.mp hb).2.1
          simp [hu, h] at this
        · simp [h, hs] at humem
      simp only [hu, if_neg hs, List.mem_append, List.mem_map, List.mem_singleton] at hd
      obtain ⟨v, hv, rfl⟩ | rfl := hd
      · exact subKey_isKey hc hb hle humem hv
      · exact delKey_isKey hc hb hle humem
  · obtain ⟨v, hv, hd⟩ := List.mem_filterMap.mp hd
    split_ifs at hd with h₁ h₂
    obtain rfl := Option.some.inj hd
    exact absKey_isKey hc (by simpa using hv) (goLoop_false_iff.mp (by simpa using h₂))

/-! ### The missing key -/

/-- All boundary symbols on the left, with `v` next to be consumed. -/
def brinkContext (sz : Sizes) (v : Sym) : Context :=
  ⟨List.replicate sz.ulcMax stopStartChar, v :: List.replicate (sz.urcMax - 1) stopStartChar,
    List.replicate sz.llcMax stopStartChar⟩

theorem brinkContext_isKey {v : Sym} (hv : v ∈ args.V1) (hu : 0 < args.sizes.urcMax) :
    IsKey args (brinkContext args.sizes v) ∧ isBold args.sizes (brinkContext args.sizes v) := by
  refine ⟨⟨⟨?_, ?_, ?_, ?_⟩, ?_, ?_, ?_, ?_, ?_, ?_⟩, ?_⟩
  · rw [sharpAtBeginning_iff]
    simp [brinkContext, List.pairwise_replicate]
  · rw [sharpAtEnd_iff]
    simp [brinkContext, List.pairwise_replicate]
  · simp [brinkContext]
  · simp [brinkContext]
  · simp [brinkContext]
  · simp only [brinkContext, List.length_cons, List.length_replicate]
    omega
  · simp [brinkContext]
  · simp +contextual [brinkContext]
  · simp +contextual [brinkContext, hv]
  · simp +contextual [brinkContext]
  · rw [isBold_iff]
    simp only [brinkContext, List.length_cons, List.length_replicate, and_true, true_and]
    omega

theorem delKey_brinkContext_not_isKey {v : Sym} (hu : 2 ≤ args.sizes.ulcMax)
    (hs : v ≠ stopStartChar) :
    ¬ IsKey args (delKey args.sizes (brinkContext args.sizes v) v) := by
  intro h
  obtain ⟨n, hn⟩ := Nat.exists_eq_add_of_le' hu
  have hsharp := (sharpAtBeginning_iff _).mp h.ulc_sharp
  simp [delKey, brinkContext, add, hn, List.replicate_succ, hs] at hsharp

/-- Deleting at the brink looks up a key that the enumeration has filtered out. -/
theorem not_closed {v : Sym} (hv : v ∈ args.V1) (hs : v ≠ stopStartChar)
    (hul : 2 ≤ args.sizes.ulcMax) (hur : 0 < args.sizes.urcMax) : ¬ Closed ord args := by
  intro h
  obtain ⟨hkey, hbold⟩ := brinkContext_isKey hv hur
  have hcomp : delKey args.sizes (brinkContext args.sizes v) v ∈ computedKeys ord args :=
    mem_computedKeys_bold hkey hbold (by simp [brinkContext, hs])
  exact delKey_brinkContext_not_isKey hul hs (lookup_isSome_iff.mp (h.1 _ hcomp))

/-- The construction is closed exactly for these sizes and alphabets. -/
theorem closed_iff (ord : HashOrder) (args : Args) (hV : args.Alphabets) :
    Closed ord args ↔ args.sizes.ulcMax ≤ 1 ∨ args.sizes.urcMax = 0 ∨ args.V1 = [] := by
  constructor
  · intro h
    by_contra hne
    push Not at hne
    obtain ⟨hul, hur, hv⟩ := hne
    obtain ⟨v, hmem⟩ := List.exists_mem_of_ne_nil _ hv
    have hs : v ≠ stopStartChar := fun h => hV.upper.sharp (h ▸ hmem)
    exact not_closed hmem hs (by omega) (Nat.pos_of_ne_zero hur) h
  · exact fun h => closed_of_computedKeys (computedKeys_isKey h)

/-- The order of insertion. -/
def insertionOrder : HashOrder := ⟨fun l => l, fun _ => List.Perm.refl _⟩

/-- The table that has `ε`, which is two bytes. -/
def epsilonTable : NewTable := ⟨["\u00ce\u00b5"], by decide, by decide⟩

/-- One-letter alphabets. -/
def smallArgs (sz : Sizes) : Args := ⟨sz, ["a"], ["b"], epsilonTable⟩

/-- An upper alphabet with a name that the table has. -/
def epsilonArgs (sz : Sizes) : Args := ⟨sz, epsilonTable.names, ["b"], epsilonTable⟩

theorem alphabet_a : Alphabet ["a"] := ⟨by decide, by decide, by decide⟩

theorem alphabet_b : Alphabet ["b"] := ⟨by decide, by decide, by decide⟩

theorem epsilonArgs_alphabets (sz : Sizes) : (epsilonArgs sz).Alphabets :=
  ⟨⟨by
    simp only [epsilonArgs];
      decide, by simp only [epsilonArgs]; decide, epsilonTable.eps⟩, alphabet_b⟩

theorem smallArgs_valid (sz : Sizes) : (smallArgs sz).Valid :=
  ⟨⟨alphabet_a, alphabet_b⟩, by simp only [smallArgs]; decide, by simp only [smallArgs]; decide⟩

theorem closed_one_two_one : Closed insertionOrder (smallArgs ⟨1, 2, 1⟩) :=
  (closed_iff _ _ (smallArgs_valid _).toAlphabets).mpr (.inl le_rfl)

/-- Two upper left symbols and one upper right symbol over the alphabet `a`. -/
theorem not_closed_two_one_zero :
    ¬ ∀ (ord : HashOrder) (args : Args), args.Alphabets → Closed ord args := by
  intro h
  have hmem : "a" ∈ (smallArgs ⟨2, 1, 0⟩).V1 := by decide
  exact not_closed hmem (by decide) le_rfl Nat.one_pos
    (h insertionOrder (smallArgs ⟨2, 1, 0⟩) (smallArgs_valid _).toAlphabets)

end StochasticEdit.Generator
