import StochasticEdit.Generator.Runs
import Mathlib.Data.Set.Function

/-! The relation that the finished transducer accepts. The accepting paths out of the
state of a context are the runs of that context, arc by arc, so each alignment of
an upper string with a lower string is exactly one accepting path. -/

namespace StochasticEdit.Generator

open Wfst

variable {W : Type*} {ord : HashOrder} {args : Args} {c d : Context}

/-- The entry of `arc_map` for an arc. -/
def Machine.action? (M : Machine W) (e : ℕ) : Option Action :=
  (M.fst.arc? e).bind fun p => M.arcMap.lookup (p.1, p.2.nextstate, p.2.ilabel, p.2.olabel)

/-- The edit that an arc makes, if it is an INS, SUB or DEL arc. -/
def Machine.edit? (args : Args) (M : Machine W) (e : ℕ) : Option Edit :=
  match M.action? e with
  | some .INS => ((M.fst.olabel? e).bind (findSymbol args.symsOut)).map .ins
  | some .SUB => ((M.fst.olabel? e).bind (findSymbol args.symsOut)).map .sub
  | some .DEL => some .del
  | _ => none

/-- The INS, SUB and DEL arcs of a path. -/
def Machine.edits (args : Args) (M : Machine W) (p : List ℕ) : List Edit :=
  p.filterMap (M.edit? args)

/-- A string of labels spells a string of symbols. -/
def Spells (table : List (Sym × ℤ)) (labels : List ℤ) (u : List Sym) : Prop :=
  labels.map (findSymbol table) = u.map some

/-- An accepting path with input `u` and output `y`. -/
def Machine.Labels (args : Args) (M : Machine W) (u y : List Sym) (p : List ℕ) : Prop :=
  M.fst.Accepts p ∧ Spells args.symsIn (M.fst.istring p) u ∧ Spells args.symsOut (M.fst.ostring p) y

theorem Spells.unique {table : List (Sym × ℤ)} {labels : List ℤ} {u u' : List Sym}
    (h : Spells table labels u) (h' : Spells table labels u') : u = u' :=
  List.map_injective_iff.mpr (Option.some_injective _) (h.symm.trans h')

variable [One W] {M : Machine W}

/-- A path through the transducer that makes the given moves, one arc for each. -/
inductive Traces (ord : HashOrder) (args : Args) (M : Machine W) :
    Context → List ℕ → List Move → Prop
  | final {c : Context} {e : ℕ} : (Move.final, none) ∈ moves args c →
      M.fst.arc? e = some (stateNum ord args c, moveArc W ord args c (.final, none)) →
      Traces ord args M c [e] [.final]
  | step {c d : Context} {e : ℕ} {m : Move} {p : List ℕ} {ms : List Move} :
      (m, some d) ∈ moves args c →
      M.fst.arc? e = some (stateNum ord args c, moveArc W ord args c (m, some d)) →
      Traces ord args M d p ms → Traces ord args M c (e :: p) (m :: ms)

theorem Traces.run {p : List ℕ} {ms : List Move} (h : Traces ord args M c p ms) :
    Run args c ms := by
  induction h with
  | final hm _ => exact .final hm
  | step hm _ _ ih => exact .step hm ih

theorem Traces.walk {p : List ℕ} {ms : List Move} (h : Traces ord args M c p ms) :
    walk M.fst.ends (stateNum ord args c) p = some 0 := by
  induction h with
  | final _ he => exact VectorFst.walk_cons_arc_iff.mpr ⟨_, he, rfl⟩
  | step _ he _ ih => exact VectorFst.walk_cons_arc_iff.mpr ⟨_, he, ih⟩

theorem exists_traces_of_run (h : contextualEdit W ord args = some M) (hsz : Completes args)
    {ms : List Move} (hrun : Run args c ms) (hc : IsKey args c) :
    ∃ p, Traces ord args M c p ms := by
  induction hrun with
  | final hm =>
    obtain ⟨e, he⟩ := exists_arc?_of_move h hc hm
    exact ⟨[e], .final hm he⟩
  | step hm _ ih =>
    obtain ⟨e, he⟩ := exists_arc?_of_move h hc hm
    obtain ⟨p, hp⟩ := ih (target_isKey hsz hc hm)
    exact ⟨e :: p, .step hm he hp⟩

/-- The final state has no arcs. -/
theorem walk_zero (h : contextualEdit W ord args = some M) {p : List ℕ} {q : ℕ}
    (hp : Wfst.walk M.fst.ends 0 p = some q) : p = [] ∧ q = 0 := by
  match p with
  | [] => exact ⟨rfl, (Option.some.inj hp).symm⟩
  | e :: p =>
    obtain ⟨a, ha, -⟩ := VectorFst.walk_cons_arc_iff.mp hp
    obtain ⟨c, m, hc, h0, -⟩ := exists_move_of_arc? h ha
    have := stateNum_pos ord hc
    omega

theorem exists_traces_of_walk (h : contextualEdit W ord args = some M) (hsz : Completes args)
    {p : List ℕ} (hp : Wfst.walk M.fst.ends (stateNum ord args c) p = some 0) (hc : IsKey args c) :
    ∃ ms, Traces ord args M c p ms := by
  induction p generalizing c with
  | nil =>
    have h0 : stateNum ord args c = 0 := Option.some.inj hp
    have := stateNum_pos ord hc
    omega
  | cons e p ih =>
    obtain ⟨a, ha, hwalk⟩ := VectorFst.walk_cons_arc_iff.mp hp
    obtain ⟨c', ⟨m, t⟩, hc', hq, hm, rfl⟩ := exists_move_of_arc? h ha
    obtain rfl := stateNum_inj ord hc hc' hq
    cases t with
    | none =>
      obtain rfl := (target_eq_none_iff hm).mp rfl
      obtain ⟨rfl, -⟩ := walk_zero h hwalk
      exact ⟨[.final], .final hm ha⟩
    | some d =>
      obtain ⟨ms, hms⟩ := ih hwalk (target_isKey hsz hc hm)
      exact ⟨m :: ms, .step hm ha hms⟩

/-- Different paths make different moves. -/
theorem Traces.unique (h : contextualEdit W ord args = some M) (hV : args.Valid)
    (hsz : Completes args) {p p' : List ℕ} {ms : List Move} (hp : Traces ord args M c p ms)
    (hp' : Traces ord args M c p' ms) (hc : IsKey args c) : p = p' := by
  induction hp generalizing p' with
  | final hm he =>
    cases hp' with
    | final _ he' => rw [arc_unique h hV hsz hc hm he he']
    | step hm' _ _ => simpa using (mem_moves_final.mp hm').1
  | step hm he _ ih =>
    cases hp' with
    | final _ _ => simpa using (mem_moves_final.mp hm).1
    | step hm' he' hp' =>
      obtain rfl := Option.some.inj (target_unique hm hm')
      rw [arc_unique h hV hsz hc hm he he', ih hp' (target_isKey hsz hc hm)]

/-! ### Labels and edits of a path -/

theorem action?_of_arc? (h : contextualEdit W ord args = some M) (hV : args.Unreserved)
    (hsz : Completes args) (hc : IsKey args c) {m : Move × Option Context} (hm : m ∈ moves args c)
    {e : ℕ} (he : M.fst.arc? e = some (stateNum ord args c, moveArc W ord args c m)) :
    M.action? e = some m.1.action := by
  rw [Machine.action?, he]
  exact arcMap_lookup h hV hsz hc hm

theorem findSymbol_idOut (hV : args.Unreserved) {v : Sym} (hv : v ∈ args.V2) :
    findSymbol args.symsOut (idOut args v) = some v :=
  findSymbol_of_symbolId (idOut_ne_zero hV hv) (symbolId_idOut hv)

theorem findSymbol_idIn (hV : args.Unreserved) {v : Sym} (hv : v ∈ args.V1 ∨ v = stopStartChar) :
    findSymbol args.symsIn (idIn args v) = some v :=
  findSymbol_of_symbolId (idIn_ne_zero hV hv) (symbolId_idIn hv)

theorem edit?_of_arc? (h : contextualEdit W ord args = some M) (hV : args.Unreserved)
    (hsz : Completes args) (hc : IsKey args c) {m : Move} {t : Option Context}
    (hm : (m, t) ∈ moves args c) {e : ℕ}
    (he : M.fst.arc? e = some (stateNum ord args c, moveArc W ord args c (m, t))) :
    M.edit? args e = m.edit? := by
  have hact := action?_of_arc? h hV hsz hc hm he
  have hol : M.fst.olabel? e = some (m.olabel args) := by rw [VectorFst.olabel?, he]; rfl
  cases m with
  | ins v =>
    have hsym := findSymbol_idOut hV (mem_moves_ins.mp hm).2.1
    simp [Machine.edit?, hact, hol, Move.action, Move.olabel, Move.edit?, hsym]
  | sub v =>
    have hsym := findSymbol_idOut hV (mem_moves_sub.mp hm).2.1
    simp [Machine.edit?, hact, hol, Move.action, Move.olabel, Move.edit?, hsym]
  | final => simp [Machine.edit?, hact, Move.action, Move.edit?]
  | del => simp [Machine.edit?, hact, Move.action, Move.edit?]
  | abs v => simp [Machine.edit?, hact, Move.action, Move.edit?]

/-- The labels that a move adds to the strings of a path. -/
theorem labels_of_move (hV : args.Unreserved) {m : Move} {t : Option Context}
    (hm : (m, t) ∈ moves args c) :
    (if m.ilabel args = 0 then [] else [m.ilabel args]) = m.read?.toList.map (idIn args) ∧
    (if m.olabel args = 0 then [] else [m.olabel args]) =
      (spelled m.edit?.toList).map (idOut args) := by
  cases m with
  | ins v =>
    have hne := idOut_ne_zero hV (mem_moves_ins.mp hm).2.1
    simp [Move.ilabel, Move.olabel, Move.read?, Move.edit?, spelled, Edit.symbol?, hne]
  | sub v =>
    have hne := idOut_ne_zero hV (mem_moves_sub.mp hm).2.1
    simp [Move.ilabel, Move.olabel, Move.read?, Move.edit?, spelled, Edit.symbol?, hne]
  | abs v =>
    have hne := idIn_ne_zero hV (mem_moves_abs.mp hm).2.1
    simp [Move.ilabel, Move.olabel, Move.read?, Move.edit?, spelled, hne]
  | final => simp [Move.ilabel, Move.olabel, Move.read?, Move.edit?, spelled]
  | del => simp [Move.ilabel, Move.olabel, Move.read?, Move.edit?, spelled, Edit.symbol?]

theorem spelled_append (es es' : List Edit) : spelled (es ++ es') = spelled es ++ spelled es' :=
  List.filterMap_append

theorem Traces.labels (h : contextualEdit W ord args = some M) (hV : args.Unreserved)
    (hsz : Completes args) {p : List ℕ} {ms : List Move} (hp : Traces ord args M c p ms)
    (hc : IsKey args c) :
    M.fst.istring p = (reading ms).map (idIn args) ∧
      M.fst.ostring p = (spelled (editsOf ms)).map (idOut args) ∧ M.edits args p = editsOf ms := by
  have hcons {e : ℕ} {p : List ℕ} : M.edits args (e :: p) = (M.edit? args e).toList ++
      M.edits args p := by
    cases he : M.edit? args e <;> simp [Machine.edits, he]
  induction hp with
  | final hm he =>
    obtain ⟨hi, ho⟩ := labels_of_move hV hm
    refine ⟨?_, ?_, ?_⟩
    · rw [VectorFst.istring_cons he, VectorFst.istring_nil, List.append_nil]
      exact hi
    · rw [VectorFst.ostring_cons he, VectorFst.ostring_nil, List.append_nil]
      exact ho
    · rw [hcons, edit?_of_arc? h hV hsz hc hm he]
      rfl
  | @step c d e m p ms hm he _ ih =>
    obtain ⟨hin, hout, hedits⟩ := ih (target_isKey hsz hc hm)
    obtain ⟨hi, ho⟩ := labels_of_move hV hm
    refine ⟨?_, ?_, ?_⟩
    · rw [VectorFst.istring_cons he, hin, reading_cons, List.map_append, ← hi]
      rfl
    · rw [VectorFst.ostring_cons he, hout, editsOf_cons, spelled_append, List.map_append, ← ho]
      rfl
    · rw [hcons, edit?_of_arc? h hV hsz hc hm he, hedits, editsOf_cons]

theorem spells_map_id {table : List (Sym × ℤ)} {id : Sym → ℤ} {u : List Sym}
    (hid : ∀ v ∈ u, findSymbol table (id v) = some v) : Spells table (u.map id) u := by
  rw [Spells, List.map_map]
  exact List.map_congr_left hid

/-! ### Accepting paths -/

/-- Only state 0 is final. -/
theorem final?_isSome_iff (h : contextualEdit W ord args = some M) {q : ℕ} :
    (M.fst.final? q).isSome ↔ q = 0 := by
  rcases Nat.eq_zero_or_pos q with rfl | hpos
  · simp [VectorFst.final?, machine_state_zero h]
  · have hne : q ≠ 0 := by omega
    by_cases hq : q ≤ (keys ord args).length
    · obtain ⟨c, hc, rfl⟩ := exists_stateNum ord hpos hq
      simp [VectorFst.final?, machine_state h hc, hne]
    · have hnone : M.fst.states[q]? = none := by
        rw [List.getElem?_eq_none_iff, machine_numStates h]
        omega
      simp [VectorFst.final?, hnone, hne]

theorem accepts_iff (h : contextualEdit W ord args = some M) (hsz : Completes args) {p : List ℕ} :
    M.fst.Accepts p ↔ ∃ ms, Traces ord args M (startKey args.sizes) p ms := by
  simp only [VectorFst.Accepts, VectorFst.AcceptsAt, machine_start h, final?_isSome_iff h,
    Option.some.injEq]
  constructor
  · rintro ⟨q, q₀, rfl, hp, rfl⟩
    exact exists_traces_of_walk h hsz hp startKey_isKey
  · rintro ⟨ms, hp⟩
    exact ⟨0, _, rfl, hp.walk, rfl⟩

theorem startKey_urc (sz : Sizes) : (startKey sz).urc = [] := by
  unfold startKey
  split_ifs <;> rfl

/-- A traced path spells what its moves read and write. -/
theorem Traces.spells (h : contextualEdit W ord args = some M) (hV : args.Unreserved)
    (hsz : Completes args) (hu : args.sizes.ulcMax ≤ 1) (hl : args.sizes.llcMax ≤ 1) {p : List ℕ}
    {ms : List Move} (hp : Traces ord args M (startKey args.sizes) p ms) :
    Spells args.symsIn (M.fst.istring p) (reading ms) ∧
      Spells args.symsOut (M.fst.ostring p) (spelled (editsOf ms)) := by
  obtain ⟨hi, ho, -⟩ := hp.labels h hV hsz startKey_isKey
  obtain ⟨x, ⟨hx, heq⟩, -, hout⟩ := hp.run.exists_pending hsz hu hl startKey_isKey
  rw [startKey_urc, List.nil_append] at heq
  constructor
  · rw [hi]
    apply spells_map_id
    intro v hv
    apply findSymbol_idIn hV
    rcases List.mem_append.mp (heq ▸ hv) with hv | hv
    · exact .inl (hx v hv)
    · exact .inr (List.eq_of_mem_replicate hv)
  · rw [ho]
    exact spells_map_id fun v hv => findSymbol_idOut hV (hout v hv)

/-- The accepting paths with given labels, as runs. -/
theorem labels_iff (h : contextualEdit W ord args = some M) (hV : args.Unreserved)
    (hu : args.sizes.ulcMax ≤ 1) (hl : args.sizes.llcMax ≤ 1) {u y : List Sym} {p : List ℕ} :
    M.Labels args u y p ↔ ∃ ms, Traces ord args M (startKey args.sizes) p ms ∧ reading ms = u ∧
      spelled (editsOf ms) = y := by
  have hsz : Completes args := .inl hu
  constructor
  · rintro ⟨hacc, hread, hwrite⟩
    obtain ⟨ms, hp⟩ := (accepts_iff h hsz).mp hacc
    obtain ⟨hi, ho⟩ := hp.spells h hV hsz hu hl
    exact ⟨ms, hp, hi.unique hread, ho.unique hwrite⟩
  · rintro ⟨ms, hp, rfl, rfl⟩
    exact ⟨(accepts_iff h hsz).mpr ⟨ms, hp⟩, hp.spells h hV hsz hu hl⟩

/-- Insert all of `y`, then delete `n` upper symbols. -/
def rewriteAll (n : ℕ) (y : List Sym) : List Edit := y.map .ins ++ List.replicate n .del

theorem spelled_rewriteAll (n : ℕ) (y : List Sym) : spelled (rewriteAll n y) = y := by
  induction y with
  | nil => simp [rewriteAll, spelled, List.filterMap_replicate, Edit.symbol?]
  | cons v y ih =>
    show spelled (.ins v :: rewriteAll n y) = v :: y
    rw [spelled_cons, ih]
    rfl

theorem consumptions_rewriteAll (n : ℕ) (y : List Sym) : consumptions (rewriteAll n y) = n := by
  induction y with
  | nil => simp [rewriteAll, consumptions, List.countP_replicate, Edit.consumes]
  | cons v y ih =>
    show consumptions (.ins v :: rewriteAll n y) = n
    rw [consumptions_cons, ih]
    rfl

theorem exists_contextualEdit (W : Type*) [One W] (ord : HashOrder) (hsz : Completes args) :
    ∃ M, contextualEdit W ord args = some M := by
  apply Option.isSome_iff_exists.mp
  rw [contextualEdit, Option.isSome_map]
  exact arcCalls_isSome (computedKeys_isKey hsz)

theorem pending_start {rest x : List Sym} : Pending args (startKey args.sizes) rest x ↔
    (∀ s ∈ x, s ∈ args.V1) ∧ rest = x ++ padding args := by
  rw [Pending, startKey_urc, List.nil_append]

/-- The accepting paths that read the padded string `x` and write `y` are the
alignments of `x` and `y`. -/
theorem edits_bijOn (h : contextualEdit W ord args = some M) (hV : args.Valid)
    (hu : args.sizes.ulcMax ≤ 1) (hl : args.sizes.llcMax ≤ 1) (hr : 1 ≤ args.sizes.urcMax)
    {x y : List Sym} (hx : ∀ s ∈ x, s ∈ args.V1) (hy : ∀ s ∈ y, s ∈ args.V2) :
    Set.BijOn (M.edits args) {p | M.Labels args (x ++ padding args) y p}
      {es | consumptions es = x.length ∧ spelled es = y} := by
  have hsz : Completes args := .inl hu
  have hkey : IsKey args (startKey args.sizes) := startKey_isKey
  refine ⟨fun p hp => ?_, fun p hp p' hp' heq => ?_, fun es hes => ?_⟩
  · obtain ⟨ms, htr, hread, hwrite⟩ := (labels_iff h hV.unreserved hu hl).mp hp
    obtain ⟨x', hpend, hcount, -⟩ := htr.run.exists_pending hsz hu hl hkey
    have hxx : x = x' := List.append_cancel_right (hread.symm.trans (pending_start.mp hpend).2)
    show consumptions (M.edits args p) = x.length ∧ spelled (M.edits args p) = y
    rw [(htr.labels h hV.unreserved hsz hkey).2.2, hxx]
    exact ⟨hcount, hwrite⟩
  · obtain ⟨ms, htr, hread, -⟩ := (labels_iff h hV.unreserved hu hl).mp hp
    obtain ⟨ms', htr', hread', -⟩ := (labels_iff h hV.unreserved hu hl).mp hp'
    rw [(htr.labels h hV.unreserved hsz hkey).2.2,
      (htr'.labels h hV.unreserved hsz hkey).2.2] at heq
    have hms : ms = ms' :=
      htr.run.unique hsz hu hl htr'.run hkey (hread.trans hread'.symm) heq
    exact htr.unique h hV hsz (hms ▸ htr') hkey
  · obtain ⟨ms, hrun, hread, hedits⟩ := exists_run hV hu hl hr (startKey args.sizes)
      (x ++ padding args) x es hkey (pending_start.mpr ⟨hx, rfl⟩) hes.1 (hes.2 ▸ hy)
    obtain ⟨p, htr⟩ := exists_traces_of_run h hsz hrun hkey
    refine ⟨p, (labels_iff h hV.unreserved hu hl).mpr ⟨ms, htr, hread, by rw [hedits, hes.2]⟩, ?_⟩
    rw [(htr.labels h hV.unreserved hsz hkey).2.2, hedits]

theorem exists_labels_iff (h : contextualEdit W ord args = some M) (hV : args.Valid)
    (hu : args.sizes.ulcMax ≤ 1) (hl : args.sizes.llcMax ≤ 1) (hr : 1 ≤ args.sizes.urcMax)
    {u y : List Sym} : (∃ p, M.Labels args u y p) ↔
      (∃ x, (∀ s ∈ x, s ∈ args.V1) ∧ u = x ++ padding args) ∧ ∀ s ∈ y, s ∈ args.V2 := by
  constructor
  · rintro ⟨p, hp⟩
    obtain ⟨ms, htr, rfl, rfl⟩ := (labels_iff h hV.unreserved hu hl).mp hp
    obtain ⟨x, hpend, -, hout⟩ := htr.run.exists_pending (.inl hu) hu hl startKey_isKey
    exact ⟨⟨x, pending_start.mp hpend⟩, hout⟩
  · rintro ⟨⟨x, hx, rfl⟩, hy⟩
    obtain ⟨p, hp, -⟩ := (edits_bijOn h hV hu hl hr hx hy).surjOn
      ⟨consumptions_rewriteAll x.length y, spelled_rewriteAll x.length y⟩
    exact ⟨p, hp⟩

/-- The transducer accepts every padded upper string with every lower string, and
has one accepting path for each alignment of the two. -/
theorem accepts_alignments (W : Type*) [One W] (ord : HashOrder) (args : Args) (hV : args.Valid)
    (hu : args.sizes.ulcMax ≤ 1) (hl : args.sizes.llcMax ≤ 1) (hr : 1 ≤ args.sizes.urcMax) :
    ∃ M, contextualEdit W ord args = some M ∧
      (∀ u y : List Sym, (∃ p, M.Labels args u y p) ↔
        (∃ x, (∀ s ∈ x, s ∈ args.V1) ∧ u = x ++ padding args) ∧ ∀ s ∈ y, s ∈ args.V2) ∧
      ∀ x y : List Sym, (∀ s ∈ x, s ∈ args.V1) → (∀ s ∈ y, s ∈ args.V2) →
        Set.BijOn (M.edits args) {p | M.Labels args (x ++ padding args) y p}
          {es | consumptions es = x.length ∧ spelled es = y} := by
  obtain ⟨M, h⟩ := exists_contextualEdit W ord (.inl hu : Completes args)
  exact ⟨M, h, fun u y => exists_labels_iff h hV hu hl hr,
    fun x y hx hy => edits_bijOn h hV hu hl hr hx hy⟩

/-- No path reads a name of the empty word. -/
theorem not_accepts_alignments : ¬ ∀ (ord : HashOrder) (args : Args), args.Alphabets →
    args.sizes.ulcMax ≤ 1 → args.sizes.llcMax ≤ 1 → 1 ≤ args.sizes.urcMax →
    ∃ M, contextualEdit ℕ ord args = some M ∧
      (∀ u y : List Sym, (∃ p, M.Labels args u y p) ↔
        (∃ x, (∀ s ∈ x, s ∈ args.V1) ∧ u = x ++ padding args) ∧ ∀ s ∈ y, s ∈ args.V2) ∧
      ∀ x y : List Sym, (∀ s ∈ x, s ∈ args.V1) → (∀ s ∈ y, s ∈ args.V2) →
        Set.BijOn (M.edits args) {p | M.Labels args (x ++ padding args) y p}
          {es | consumptions es = x.length ∧ spelled es = y} := by
  intro hall
  obtain ⟨M, -, hrel, -⟩ := hall insertionOrder (epsilonArgs ⟨0, 1, 0⟩) (epsilonArgs_alphabets _)
    (by decide) (by decide) (by decide)
  obtain ⟨p, -, hread, -⟩ := (hrel (epsilonTable.names ++ padding (epsilonArgs ⟨0, 1, 0⟩)) []).mpr
    ⟨⟨_, fun s hs => hs, rfl⟩, by simp⟩
  obtain ⟨v, hv⟩ : ∃ v, v ∈ epsilonTable.names := ⟨_, List.mem_cons_self⟩
  have hmem : some v ∈ (M.fst.istring p).map (findSymbol (epsilonArgs ⟨0, 1, 0⟩).symsIn) := by
    rw [hread]
    exact List.mem_map_of_mem (List.mem_append_left _ hv)
  obtain ⟨i, -, hi⟩ := List.mem_map.mp hmem
  exact findSymbol_ne_name hv i hi

theorem accepts_alignments_one_one_one :
    ∃ M, contextualEdit ℕ insertionOrder (smallArgs ⟨1, 1, 1⟩) = some M ∧
      ∃ p, M.Labels (smallArgs ⟨1, 1, 1⟩) ["a", "#"] ["b"] p := by
  obtain ⟨M, h, hrel, -⟩ := accepts_alignments ℕ insertionOrder (smallArgs ⟨1, 1, 1⟩)
    (smallArgs_valid _) le_rfl le_rfl le_rfl
  exact ⟨M, h, (hrel ["a", "#"] ["b"]).mpr ⟨⟨["a"], by decide, rfl⟩, by decide⟩⟩

end StochasticEdit.Generator
