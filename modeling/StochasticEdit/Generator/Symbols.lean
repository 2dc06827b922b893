import StochasticEdit.Generator.Machine

/-! The symbol tables give distinct symbols distinct positive ids, and the id of a
symbol names it again; the names that a new table has already stay names of the empty
word. -/

namespace StochasticEdit.Generator

/-- An alphabet the program is meant for: no repetition and no reserved symbol. -/
structure Alphabet (V : List Sym) : Prop where
  nodup : V.Nodup
  sharp : stopStartChar ∉ V
  eps : epsilon ∉ V

/-- Arguments with two such alphabets. -/
structure Args.Alphabets (args : Args) : Prop where
  upper : Alphabet args.V1
  lower : Alphabet args.V2

/-- The names with the id 0. -/
def NewTable.emptyNames (new : NewTable) : List Sym := epsilon :: new.names

/-- Alphabets that a new symbol table has no name of. -/
structure Args.Valid (args : Args) : Prop extends args.Alphabets where
  newUpper : ∀ v ∈ args.V1, v ∉ args.newTable.names
  newLower : ∀ v ∈ args.V2, v ∉ args.newTable.names

/-- Symbols that may repeat, none of them reserved. -/
structure Unreserved (new : NewTable) (V : List Sym) : Prop where
  sharp : stopStartChar ∉ V
  empty : ∀ v ∈ V, v ∉ new.emptyNames

structure Args.Unreserved (args : Args) : Prop where
  upper : Generator.Unreserved args.newTable args.V1
  lower : Generator.Unreserved args.newTable args.V2

section Reserved
variable {new : NewTable} {V : List Sym}

theorem Alphabet.unreserved (hV : Alphabet V) (hnew : ∀ v ∈ V, v ∉ new.names) :
    Unreserved new V := by
  refine ⟨hV.sharp, fun v hv hmem => ?_⟩
  rcases List.mem_cons.mp hmem with rfl | hmem
  · exact hV.eps hv
  · exact hnew v hv hmem

theorem Args.Valid.unreserved {args : Args} (h : args.Valid) : args.Unreserved :=
  ⟨h.upper.unreserved h.newUpper, h.lower.unreserved h.newLower⟩

/-- The boundary symbol is a single byte. -/
theorem NewTable.sharp (new : NewTable) : stopStartChar ∉ new.emptyNames := by
  intro hmem
  rcases List.mem_cons.mp hmem with heq | hmem
  · exact absurd heq (by decide)
  · exact new.long _ hmem (by decide)

theorem Unreserved.notMem_emptyNames (hV : Unreserved new V) {v : Sym}
    (h : v ∈ V ∨ v = stopStartChar) : v ∉ new.emptyNames := by
  rcases h with h | rfl
  · exact hV.empty v h
  · exact new.sharp

end Reserved

/-! ### Entries -/

theorem lookup_isSome_iff_mem {α β : Type*} [BEq α] [LawfulBEq α] {l : List (α × β)} {a : α} :
    (l.lookup a).isSome ↔ a ∈ l.map Prod.fst := by
  induction l with
  | nil => simp
  | cons p l ih =>
    rw [List.lookup_cons]
    by_cases h : a = p.1
    · simp [h]
    · have hb : (a == p.1) = false := by simpa using h
      simp [hb, h, ih]

theorem mem_of_lookup_eq_some {α β : Type*} [BEq α] [LawfulBEq α] {l : List (α × β)} {a : α} {b : β}
    (h : l.lookup a = some b) : (a, b) ∈ l := by
  induction l with
  | nil => simp at h
  | cons p l ih =>
    rw [List.lookup_cons] at h
    by_cases hp : a = p.1
    · simp only [hp, beq_self_eq_true, Option.some.injEq] at h
      simp [hp, ← h]
    · have hb : (a == p.1) = false := by simpa using hp
      simp only [hb] at h
      exact List.mem_cons_of_mem _ (ih h)

/-- The ids of a table other than that of the empty word, in its order. -/
def idList (table : List (Sym × ℤ)) : List ℤ := (table.map Prod.snd).filter (· ≠ 0)

theorem idList_cons (p : Sym × ℤ) (table : List (Sym × ℤ)) :
    idList (p :: table) = if p.2 = 0 then idList table else p.2 :: idList table := by
  rw [idList, List.map_cons, List.filter_cons]
  by_cases hp : p.2 = 0
  · rw [if_neg (by simp [hp]), if_pos hp, idList]
  · rw [if_pos (by simp [hp]), if_neg hp, idList]

/-- An entry that is found by its id. -/
theorem mem_of_findSymbol {table : List (Sym × ℤ)} {i : ℤ} {s : Sym}
    (h : findSymbol table i = some s) : (s, i) ∈ table := by
  obtain ⟨p, hp, rfl⟩ := Option.map_eq_some_iff.mp h
  have hpi : p.2 = i := by simpa using List.find?_some hp
  exact hpi ▸ List.mem_of_find?_eq_some hp

/-- With one symbol for each id but 0, an id is the id of one symbol. -/
theorem eq_of_mem_of_nodup {table : List (Sym × ℤ)} (hids : (idList table).Nodup) {v w : Sym}
    {i : ℤ} (hi : i ≠ 0) (hv : (v, i) ∈ table) (hw : (w, i) ∈ table) : v = w := by
  have hfilter : idList table = (table.filter (·.2 ≠ 0)).map Prod.snd := by
    rw [idList, List.filter_map]
    rfl
  rw [hfilter] at hids
  have hmem {s : Sym} (hs : (s, i) ∈ table) : (s, i) ∈ table.filter (·.2 ≠ 0) :=
    List.mem_filter.mpr ⟨hs, decide_eq_true hi⟩
  exact congrArg Prod.fst (List.inj_on_of_nodup_map hids (hmem hv) (hmem hw) rfl)

/-- An id that a symbol has names a symbol, -/
theorem findSymbol_isSome {table : List (Sym × ℤ)} {v : Sym} {i : ℤ}
    (h : symbolId table v = some i) :
    (findSymbol table i).isSome := by
  rw [findSymbol, Option.isSome_map]
  exact List.find?_isSome.mpr ⟨_, mem_of_lookup_eq_some h, decide_eq_true rfl⟩

/-- and with one symbol for each id it names this one. -/
theorem findSymbol_eq_of_nodup {table : List (Sym × ℤ)} (hids : (idList table).Nodup) {v : Sym}
    {i : ℤ} (hi : i ≠ 0) (h : symbolId table v = some i) : findSymbol table i = some v := by
  obtain ⟨w, hw⟩ := Option.isSome_iff_exists.mp (findSymbol_isSome h)
  rw [hw, eq_of_mem_of_nodup hids hi (mem_of_findSymbol hw) (mem_of_lookup_eq_some h)]

/-! ### Adding symbols -/

section Tables
variable {new : NewTable} {V : List Sym} {table : List (Sym × ℤ)} {v w s : Sym} {i k : ℤ}

theorem mem_addSymbol : (v, i) ∈ addSymbol table s k ↔
    (v, i) ∈ table ∨ s ∉ table.map Prod.fst ∧ v = s ∧ i = k := by
  unfold addSymbol
  split_ifs with h
  · simp only [h, not_true, false_and, or_false]
  · rw [List.mem_cons, Prod.mk.injEq, or_comm]
    simp only [h, not_false_iff, true_and]

theorem mem_fst_addSymbol :
    v ∈ (addSymbol table s k).map Prod.fst ↔ v ∈ table.map Prod.fst ∨ v = s := by
  unfold addSymbol
  split_ifs with h
  · exact ⟨.inl, fun hv => hv.elim id fun hv => hv ▸ h⟩
  · rw [List.map_cons, List.mem_cons, or_comm]

theorem nodup_idList_addSymbol (h : (idList table).Nodup) (hk : ∀ p ∈ table, p.2 < k) :
    (idList (addSymbol table s k)).Nodup := by
  unfold addSymbol
  split_ifs with hs
  · exact h
  · rw [idList_cons]
    split_ifs with h0
    · exact h
    · refine List.nodup_cons.mpr ⟨fun hmem => ?_, h⟩
      obtain ⟨p, hp, hpk⟩ := List.mem_map.mp (List.mem_of_mem_filter hmem)
      exact (hk p hp).ne hpk

/-- The table before the alphabet. -/
theorem symbolTable_nil (new : NewTable) : symbolTable new [] =
    (stopStartChar, 1) :: (epsilon, 0) :: new.names.map fun s => (s, 0) := by
  have hfst : (new.names.map fun s => (s, (0 : ℤ))).map Prod.fst = new.names := by
    rw [List.map_map]
    exact List.map_id _
  have hsharp : stopStartChar ∉ epsilon :: new.names := new.sharp
  rw [symbolTable, List.zipIdx_nil, List.foldl_nil]
  have heps : addSymbol (new.names.map fun s => (s, 0)) epsilon 0 =
      (epsilon, 0) :: new.names.map fun s => (s, 0) := by
    rw [addSymbol, hfst, if_neg new.eps]
  rw [heps, addSymbol, List.map_cons, hfst, if_neg hsharp]

theorem symbolTable_concat (new : NewTable) (V : List Sym) (v : Sym) : symbolTable new (V ++ [v]) =
    addSymbol (symbolTable new V) v ((V.length : ℤ) + 2) := by
  rw [symbolTable, List.zipIdx_append, List.foldl_append, zero_add]
  rfl

theorem mem_fst_symbolTable : v ∈ (symbolTable new V).map Prod.fst ↔
    v ∈ new.emptyNames ∨ v ∈ V ∨ v = stopStartChar := by
  induction V using List.reverseRecOn with
  | nil =>
    rw [symbolTable_nil, List.map_cons, List.map_cons, List.map_map]
    simp only [NewTable.emptyNames, List.mem_cons, Function.comp_def, List.map_id',
      List.not_mem_nil, false_or]
    tauto
  | append_singleton V w ih =>
    rw [symbolTable_concat, mem_fst_addSymbol, ih]
    simp only [List.mem_append, List.mem_singleton]
    tauto

/-- The ids count the symbols of the table. -/
theorem id_bounds (h : (v, i) ∈ symbolTable new V) : 0 ≤ i ∧ i < V.length + 2 := by
  induction V using List.reverseRecOn with
  | nil =>
    rw [symbolTable_nil] at h
    simp only [List.mem_cons, Prod.mk.injEq, List.mem_map] at h
    obtain ⟨-, rfl⟩ | ⟨-, rfl⟩ | ⟨s, -, -, rfl⟩ := h <;> simp
  | append_singleton V w ih =>
    rw [symbolTable_concat, mem_addSymbol] at h
    rw [List.length_append, List.length_singleton]
    rcases h with h | ⟨-, -, rfl⟩
    · have := ih h
      omega
    · omega

/-- Only the id 0 has several symbols. -/
theorem nodup_idList_symbolTable (new : NewTable) (V : List Sym) :
    (idList (symbolTable new V)).Nodup := by
  induction V using List.reverseRecOn with
  | nil =>
    have hzero : idList ((epsilon, 0) :: new.names.map fun s => (s, 0)) = [] := by
      simp [idList, List.filter_eq_nil_iff]
    have hone : idList (symbolTable new []) = [1] := by
      rw [symbolTable_nil, idList_cons, if_neg one_ne_zero, hzero]
    rw [hone]
    exact List.nodup_singleton 1
  | append_singleton V w ih =>
    rw [symbolTable_concat]
    exact nodup_idList_addSymbol ih fun p hp => (id_bounds hp).2

theorem zero_iff (h : (v, i) ∈ symbolTable new V) : i = 0 ↔ v ∈ new.emptyNames := by
  induction V using List.reverseRecOn with
  | nil =>
    rw [symbolTable_nil] at h
    simp only [List.mem_cons, Prod.mk.injEq, List.mem_map] at h
    obtain ⟨rfl, rfl⟩ | ⟨rfl, rfl⟩ | ⟨s, hs, rfl, rfl⟩ := h
    · simpa using new.sharp
    · simp [NewTable.emptyNames]
    · simp [NewTable.emptyNames, hs]
  | append_singleton V w ih =>
    rw [symbolTable_concat, mem_addSymbol] at h
    rcases h with h | ⟨hno, rfl, rfl⟩
    · exact ih h
    · refine iff_of_false (by omega) fun hmem => hno (mem_fst_symbolTable.mpr (.inl hmem))

theorem id_unique {j : ℤ} (h : (v, i) ∈ symbolTable new V)
    (h' : (v, j) ∈ symbolTable new V) : i = j := by
  induction V using List.reverseRecOn with
  | nil =>
    rw [symbolTable_nil] at h h'
    have hsharp : stopStartChar ∉ epsilon :: new.names := new.sharp
    simp only [List.mem_cons, not_or] at hsharp
    simp only [List.mem_cons, Prod.mk.injEq, List.mem_map] at h h'
    grind
  | append_singleton V w ih =>
    rw [symbolTable_concat, mem_addSymbol] at h h'
    have hmem {k : ℤ} (h : (v, k) ∈ symbolTable new V) : v ∈ (symbolTable new V).map Prod.fst :=
      List.mem_map_of_mem h
    rcases h with h | ⟨hno, hvw, hi⟩ <;> rcases h' with h' | ⟨hno', hvw', hi'⟩
    · exact ih h h'
    · exact absurd (hvw' ▸ hmem h) hno'
    · exact absurd (hvw ▸ hmem h') hno
    · exact hi.trans hi'.symm

/-! ### Ids and symbols -/

theorem symbolId_isSome (h : v ∈ V ∨ v = stopStartChar) :
    (symbolId (symbolTable new V) v).isSome := by
  rw [symbolId, lookup_isSome_iff_mem, mem_fst_symbolTable]
  exact .inr h

theorem findSymbol_of_symbolId (hi : i ≠ 0) (h : symbolId (symbolTable new V) v = some i) :
    findSymbol (symbolTable new V) i = some v :=
  findSymbol_eq_of_nodup (nodup_idList_symbolTable new V) hi h

/-- An entry of the table is found by its symbol. -/
theorem symbolId_of_mem (h : (v, i) ∈ symbolTable new V) :
    symbolId (symbolTable new V) v = some i := by
  obtain ⟨j, hj⟩ := Option.isSome_iff_exists.mp (lookup_isSome_iff_mem.mpr (List.mem_map_of_mem h))
  rw [symbolId, hj, id_unique (mem_of_lookup_eq_some hj) h]

theorem symbolId_of_findSymbol (h : findSymbol (symbolTable new V) i = some v) :
    symbolId (symbolTable new V) v = some i := symbolId_of_mem (mem_of_findSymbol h)

theorem symbolId_lt (h : symbolId (symbolTable new V) v = some i) : 0 ≤ i ∧ i < V.length + 2 :=
  id_bounds (mem_of_lookup_eq_some h)

theorem symbolId_inj (hi : i ≠ 0) (hv : symbolId (symbolTable new V) v = some i)
    (hw : symbolId (symbolTable new V) w = some i) : v = w :=
  Option.some.inj ((findSymbol_of_symbolId hi hv).symm.trans (findSymbol_of_symbolId hi hw))

/-- Only the names of the empty word have the id 0. -/
theorem symbolId_ne_zero_iff (hv : symbolId (symbolTable new V) v = some i) :
    i ≠ 0 ↔ v ∉ new.emptyNames :=
  (zero_iff (mem_of_lookup_eq_some hv)).not

theorem symbolId_emptyName (hv : v ∈ new.emptyNames) : symbolId (symbolTable new V) v = some 0 := by
  obtain ⟨i, hi⟩ := Option.isSome_iff_exists.mp
    (lookup_isSome_iff_mem.mpr (mem_fst_symbolTable (V := V).mpr (.inl hv)))
  rw [symbolId, hi, (zero_iff (mem_of_lookup_eq_some hi)).mpr hv]

/-- `<EPS>` is the last name of the empty word. -/
theorem findSymbol_zero (new : NewTable) (V : List Sym) :
    findSymbol (symbolTable new V) 0 = some epsilon := by
  induction V using List.reverseRecOn with
  | nil => rw [symbolTable_nil]; rfl
  | append_singleton V w ih =>
    rw [symbolTable_concat, addSymbol]
    split_ifs with hw
    · exact ih
    · have hne : decide ((V.length : ℤ) + 2 = 0) = false := decide_eq_false (by omega)
      rw [findSymbol, List.find?_cons_of_neg (by simpa using hne)]
      exact ih

/-- The other names of the empty word are those of no id. -/
theorem findSymbol_ne_name (hv : v ∈ new.names) (i : ℤ) :
    findSymbol (symbolTable new V) i ≠ some v := by
  intro hfind
  have hid := symbolId_of_findSymbol hfind
  rw [symbolId_emptyName (List.mem_cons_of_mem _ hv), Option.some.injEq] at hid
  rw [← hid, findSymbol_zero, Option.some.injEq] at hfind
  exact new.eps (hfind ▸ hv)

theorem mem_of_findSymbol_symbolTable (h : findSymbol (symbolTable new V) i = some v) :
    v = epsilon ∨ v ∈ V ∨ v = stopStartChar := by
  rcases mem_fst_symbolTable.mp (List.mem_map_of_mem (mem_of_findSymbol h)) with hv | hv
  · rcases List.mem_cons.mp hv with hv | hv
    · exact .inl hv
    · exact absurd h (findSymbol_ne_name hv i)
  · exact .inr hv

end Tables

end StochasticEdit.Generator
