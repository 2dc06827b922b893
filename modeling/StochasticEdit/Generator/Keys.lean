import StochasticEdit.Generator.Symbols

/-! The keys of `all_lookup`: which contexts the enumeration keeps, that it keeps
each of them once, and that the state numbers 1, 2, 3, ... name them. -/

namespace StochasticEdit.Generator

variable {ord : HashOrder} {args : Args}

theorem mem_product (s : List Sym) (n : ℕ) (t : List Sym) :
    t ∈ product s n ↔ t.length = n ∧ ∀ a ∈ t, a ∈ s := by
  induction n generalizing t with
  | zero =>
    simp only [product, List.mem_singleton, List.length_eq_zero_iff]
    constructor
    · rintro rfl
      simp
    · exact fun h => h.1
  | succ n ih =>
    simp only [product, List.mem_flatMap, List.mem_map, ih]
    constructor
    · rintro ⟨a, ha, t, ⟨hlen, ht⟩, rfl⟩
      simp_all
    · rintro ⟨hlen, ht⟩
      match t, hlen with
      | a :: t, hlen =>
        exact ⟨a, ht a (by simp), t, ⟨by simpa using hlen, fun b hb => ht b (by simp [hb])⟩, rfl⟩

/-- A `flatMap` whose values determine the element they come from. -/
theorem nodup_flatMap_of_tag {α β γ : Type*} {l : List α} {f : α → List β} (g : β → γ) (h : α → γ)
    (hinj : ∀ a ∈ l, ∀ b ∈ l, h a = h b → a = b) (hl : l.Nodup) (hf : ∀ a ∈ l, (f a).Nodup)
    (hg : ∀ a ∈ l, ∀ b ∈ f a, g b = h a) : (l.flatMap f).Nodup := by
  rw [List.nodup_flatMap]
  refine ⟨hf, hl.imp_of_mem fun {a b} ha hb hab => ?_⟩
  show List.Disjoint (f a) (f b)
  rw [List.disjoint_left]
  intro x hx hx'
  exact hab (hinj a ha b hb ((hg a ha x hx).symm.trans (hg b hb x hx')))

theorem product_nodup {s : List Sym} (hs : s.Nodup) (n : ℕ) : (product s n).Nodup := by
  induction n with
  | zero => simp [product]
  | succ n ih =>
    refine nodup_flatMap_of_tag List.head? some (fun a _ b _ h => Option.some.inj h) hs
      (fun a _ => ih.map (List.cons_injective)) ?_
    intro a _ t ht
    obtain ⟨t', -, rfl⟩ := List.mem_map.mp ht
    rfl

/-- The filters of the enumeration. -/
structure Kept (sz : Sizes) (c : Context) : Prop where
  ulc_sharp : sharpAtBeginning c.ulc
  urc_sharp : sharpAtEnd c.urc
  ulc_nonempty : c.ulc = [] → sz.ulcMax = 0
  llc_nonempty : c.llc = [] → sz.llcMax = 0

theorem keepKey_eq_some_iff {sz : Sizes} {ulc llc urc : List Sym} {c : Context} :
    keepKey sz ulc llc urc = some c ↔ c = ⟨ulc, urc, llc⟩ ∧ Kept sz c := by
  unfold keepKey
  simp only [List.length_eq_zero_iff]
  constructor
  · intro h
    split_ifs at h with h₁ h₂ h₃ h₄
    obtain rfl := (Option.some.inj h).symm
    refine ⟨rfl, by simpa using h₁, by simpa using h₂, fun h => ?_, fun h => ?_⟩
    · by_contra hne
      exact h₃ ⟨h, Nat.pos_of_ne_zero hne⟩
    · by_contra hne
      exact h₄ ⟨h, Nat.pos_of_ne_zero hne⟩
  · rintro ⟨rfl, hk⟩
    have h₃ : ¬ (ulc = [] ∧ sz.ulcMax > 0) := fun h => by have := hk.ulc_nonempty h.1; omega
    have h₄ : ¬ (llc = [] ∧ sz.llcMax > 0) := fun h => by have := hk.llc_nonempty h.1; omega
    have h₅ : ¬ (sz.ulcMax > 0 ∧ sz.llcMax > 0 ∧ ulc = [] ∧ llc = [] ∧ urc = []) :=
      fun h => h₃ ⟨h.2.2.1, h.1⟩
    have hu : sharpAtBeginning ulc = true := hk.ulc_sharp
    have hr : sharpAtEnd urc = true := hk.urc_sharp
    simp [hu, hr, h₃, h₄, h₅]

/-- The contexts that are keys of `all_lookup`. -/
structure IsKey (args : Args) (c : Context) : Prop extends Kept args.sizes c where
  ulc_length : c.ulc.length ≤ args.sizes.ulcMax
  urc_length : c.urc.length ≤ args.sizes.urcMax
  llc_length : c.llc.length ≤ args.sizes.llcMax
  ulc_mem : ∀ s ∈ c.ulc, s ∈ args.V1 ∨ s = stopStartChar
  urc_mem : ∀ s ∈ c.urc, s ∈ args.V1 ∨ s = stopStartChar
  llc_mem : ∀ s ∈ c.llc, s ∈ args.V2 ∨ s = stopStartChar

theorem mem_iter {α : Type} {l : List α} {a : α} : a ∈ ord.iter l ↔ a ∈ l := (ord.perm l).mem_iff

theorem mem_alphabet {V : List Sym} {s : Sym} :
    s ∈ ord.iter (V ++ [stopStartChar]).dedup ↔ s ∈ V ∨ s = stopStartChar := by
  rw [mem_iter, List.mem_dedup, List.mem_append, List.mem_singleton]

theorem mem_keys {c : Context} : c ∈ keys ord args ↔ IsKey args c := by
  simp only [keys, List.mem_flatMap, List.mem_filterMap, List.mem_range, mem_product,
    keepKey_eq_some_iff, mem_alphabet]
  constructor
  · rintro ⟨i, hi, j, hj, k, hk, ulc, ⟨hul, hu⟩, llc, ⟨hll, hl⟩, urc, ⟨hrl, hr⟩, rfl, hkept⟩
    exact ⟨hkept, by simp only; omega, by simp only; omega, by simp only; omega, hu, hr, hl⟩
  · intro h
    have h₁ := h.ulc_length
    have h₂ := h.llc_length
    have h₃ := h.urc_length
    exact ⟨args.sizes.ulcMax - c.ulc.length, by omega, args.sizes.llcMax - c.llc.length, by omega,
      args.sizes.urcMax - c.urc.length, by omega, c.ulc, ⟨by omega, h.ulc_mem⟩, c.llc,
      ⟨by omega, h.llc_mem⟩, c.urc, ⟨by omega, h.urc_mem⟩, rfl, h.toKept⟩

theorem keys_nodup (ord : HashOrder) (args : Args) : (keys ord args).Nodup := by
  have hset (V : List Sym) : (ord.iter (V ++ [stopStartChar]).dedup).Nodup :=
    (ord.perm _).nodup_iff.mpr (List.nodup_dedup _)
  have hsub {m a b : ℕ} (ha : a < m + 1) (hb : b < m + 1) (h : m - a = m - b) : a = b := by omega
  unfold keys
  refine nodup_flatMap_of_tag (fun c => c.ulc.length) (fun i => args.sizes.ulcMax - i)
    (fun a ha b hb h => hsub (List.mem_range.mp ha) (List.mem_range.mp hb) h) List.nodup_range
    (fun i _ => ?_) ?_
  · refine nodup_flatMap_of_tag (fun c => c.llc.length) (fun j => args.sizes.llcMax - j)
      (fun a ha b hb h => hsub (List.mem_range.mp ha) (List.mem_range.mp hb) h) List.nodup_range
      (fun j _ => ?_) ?_
    · refine nodup_flatMap_of_tag (fun c => c.urc.length) (fun k => args.sizes.urcMax - k)
        (fun a ha b hb h => hsub (List.mem_range.mp ha) (List.mem_range.mp hb) h) List.nodup_range
        (fun k _ => ?_) ?_
      · refine nodup_flatMap_of_tag Context.ulc id (fun _ _ _ _ h => h) (product_nodup (hset _) _)
          (fun ulc _ => nodup_flatMap_of_tag Context.llc id (fun _ _ _ _ h => h)
            (product_nodup (hset _) _) (fun llc _ => ?_) ?_) ?_
        · refine (product_nodup (hset _) _).filterMap fun u u' c hu hu' => ?_
          rw [Option.mem_def, keepKey_eq_some_iff] at hu hu'
          exact congrArg Context.urc (hu.1.symm.trans hu'.1)
        · intro llc _ c hc
          obtain ⟨urc, -, h⟩ := List.mem_filterMap.mp hc
          rw [(keepKey_eq_some_iff.mp h).1, id]
        · intro ulc _ c hc
          simp only [List.mem_flatMap, List.mem_filterMap, keepKey_eq_some_iff] at hc
          obtain ⟨_, -, _, -, rfl, -⟩ := hc
          rfl
      · intro k _ c hc
        simp only [List.mem_flatMap, List.mem_filterMap, keepKey_eq_some_iff, mem_product] at hc
        obtain ⟨_, -, _, -, _, ⟨h, -⟩, rfl, -⟩ := hc
        exact h
    · intro j _ c hc
      simp only [List.mem_flatMap, List.mem_filterMap, keepKey_eq_some_iff, mem_product] at hc
      obtain ⟨_, -, _, -, _, ⟨h, -⟩, _, -, rfl, -⟩ := hc
      exact h
  · intro i _ c hc
    simp only [List.mem_flatMap, List.mem_filterMap, keepKey_eq_some_iff, mem_product] at hc
    obtain ⟨_, -, _, -, _, ⟨h, -⟩, _, -, _, -, rfl, -⟩ := hc
    exact h

/-! ### State numbers -/

theorem lookup_zipIdx_isSome {ks : List Context} {c : Context} {n : ℕ} :
    ((ks.zipIdx n).lookup c).isSome ↔ c ∈ ks := by
  rw [lookup_isSome_iff_mem, List.zipIdx_map_fst]

theorem lookup_zipIdx_getElem? {ks : List Context} {c : Context} {n m : ℕ}
    (h : (ks.zipIdx n).lookup c = some m) : n ≤ m ∧ ks[m - n]? = some c := by
  induction ks generalizing n with
  | nil => simp at h
  | cons d ks ih =>
    rw [List.zipIdx_cons, List.lookup_cons] at h
    by_cases hcd : c = d
    · simp only [hcd, beq_self_eq_true, Option.some.injEq] at h
      subst h hcd
      simp
    · have hb : (c == d) = false := by simpa using hcd
      simp only [hb] at h
      obtain ⟨hle, hget⟩ := ih h
      obtain ⟨k, rfl⟩ := Nat.exists_eq_add_of_le hle
      refine ⟨by omega, ?_⟩
      rw [show n + 1 + k - n = k + 1 by omega, List.getElem?_cons_succ]
      simpa using hget

/-- The number of a key, as `all_lookup` stores it. -/
def stateNum (ord : HashOrder) (args : Args) (c : Context) : ℕ :=
  ((allLookup (keys ord args)).lookup c).getD 0

theorem lookup_key (ord : HashOrder) {c : Context} (h : IsKey args c) :
    (allLookup (keys ord args)).lookup c = some (stateNum ord args c) := by
  have hs : ((allLookup (keys ord args)).lookup c).isSome :=
    lookup_zipIdx_isSome.mpr (mem_keys.mpr h)
  obtain ⟨n, hn⟩ := Option.isSome_iff_exists.mp hs
  rw [stateNum, hn, Option.getD_some]

theorem lookup_isSome_iff {c : Context} :
    ((allLookup (keys ord args)).lookup c).isSome ↔ IsKey args c := by
  rw [allLookup, lookup_zipIdx_isSome, mem_keys]

theorem stateNum_pos (ord : HashOrder) {c : Context} (h : IsKey args c) : 1 ≤ stateNum ord args c :=
  (lookup_zipIdx_getElem? (lookup_key ord h)).1

theorem getElem?_stateNum (ord : HashOrder) {c : Context} (h : IsKey args c) :
    (keys ord args)[stateNum ord args c - 1]? = some c :=
  (lookup_zipIdx_getElem? (lookup_key ord h)).2

theorem stateNum_inj (ord : HashOrder) {c d : Context} (hc : IsKey args c) (hd : IsKey args d)
    (h : stateNum ord args c = stateNum ord args d) : c = d := by
  have h₁ := getElem?_stateNum ord hc
  rw [h, getElem?_stateNum ord hd] at h₁
  exact (Option.some.inj h₁).symm

theorem stateNum_le (ord : HashOrder) {c : Context} (h : IsKey args c) :
    stateNum ord args c ≤ (keys ord args).length := by
  have hlt := (List.getElem?_eq_some_iff.mp (getElem?_stateNum ord h)).1
  omega

/-- Every state from 1 on is the state of a key. -/
theorem exists_stateNum (ord : HashOrder) {n : ℕ} (h₁ : 1 ≤ n) (h₂ : n ≤ (keys ord args).length) :
    ∃ c, IsKey args c ∧ stateNum ord args c = n := by
  have hlt : n - 1 < (keys ord args).length := by omega
  have hkey : IsKey args (keys ord args)[n - 1] := mem_keys.mp (List.getElem_mem hlt)
  refine ⟨_, hkey, ?_⟩
  have h := getElem?_stateNum ord hkey
  obtain ⟨hlt', heq⟩ := List.getElem?_eq_some_iff.mp h
  have hidx := (keys_nodup ord args).getElem_inj_iff.mp heq
  have := stateNum_pos ord hkey
  omega

end StochasticEdit.Generator
