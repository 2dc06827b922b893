import StochasticEdit.Generator.Records
import StochasticEdit.Generator.Termination

/-! What the transducer is for: a model of how a lower string is made of an upper string, by
one edit after the other, where the probability of an edit depends on the symbols around the
head. The transducer computes this model: the paths that relate two strings weigh as much as
the scripts that turn the one into the other. -/

namespace StochasticEdit.Generator

open Wfst
open scoped ENNReal

/-! ### The model -/

/-- The probabilities of the next edit in a context; `none` ends the lower string. -/
abbrev EditModel := Context → Option Edit → ℝ≥0∞

/-- What is seen with `left` of the upper string behind the head, `right` before it, and
`low` written. -/
def window (args : Args) (left right low : List Sym) : Context where
  ulc := (left.reverse ++ [stopStartChar]).take args.sizes.ulcMax
  urc := (right ++ padding args).take args.sizes.urcMax
  llc := (low.reverse ++ [stopStartChar]).take args.sizes.llcMax

/-- The edits that can be made before `right`: symbols are consumed as long as there are
any, and the lower string ends behind the last. -/
def options (args : Args) : List Sym → List (Option Edit)
  | [] => none :: args.V2.map fun v => some (.ins v)
  | _ :: _ => args.V2.map (fun v => some (.ins v)) ++
    (args.V2.map (fun v => some (.sub v)) ++ [some .del])

/-- The probability of a script at a position. -/
noncomputable def scriptProb (args : Args) (p : EditModel) :
    List Sym → List Sym → List Sym → List Edit → ℝ≥0∞
  | left, [], low, [] => p (window args left [] low) none
  | _, _ :: _, _, [] => 0
  | left, right, low, .ins v :: es =>
    p (window args left right low) (some (.ins v)) * scriptProb args p left right (low ++ [v]) es
  | _, [], _, .sub _ :: _ => 0
  | left, u :: right, low, .sub v :: es =>
    p (window args left (u :: right) low) (some (.sub v)) *
      scriptProb args p (left ++ [u]) right (low ++ [v]) es
  | _, [], _, .del :: _ => 0
  | left, u :: right, low, .del :: es =>
    p (window args left (u :: right) low) (some .del) * scriptProb args p (left ++ [u]) right low es

/-- The scripts that turn `x` into `y`. -/
def scripts (x y : List Sym) : Set (List Edit) := {es | consumptions es = x.length ∧ spelled es = y}

theorem rewriteAll_mem_scripts (x y : List Sym) : rewriteAll x.length y ∈ scripts x y :=
  ⟨consumptions_rewriteAll x.length y, spelled_rewriteAll x.length y⟩

/-- The probability that `x` becomes `y`. -/
noncomputable def editProb (args : Args) (p : EditModel) (x y : List Sym) : ℝ≥0∞ :=
  tsum fun es : scripts x y => scriptProb args p [] x [] es

/-- In every context the edits that can be made are a distribution. -/
def EditModel.Normalised (args : Args) (p : EditModel) : Prop :=
  ∀ left right low, (∀ s ∈ left ++ right, s ∈ args.V1) → (∀ s ∈ low, s ∈ args.V2) →
    ((options args right).map (p (window args left right low))).sum = 1

/-! ### The arcs -/

/-- The edit of an arc. -/
def Record.edit? (r : Record) : Option Edit :=
  match r.action with
  | .INS => some (.ins r.olabel)
  | .SUB => some (.sub r.olabel)
  | .DEL => some .del
  | _ => none

/-- The arc probabilities of a model: reading ahead is certain, the other arcs of a context
are its edits. -/
noncomputable def Machine.probs {W : Type*} (args : Args) (M : Machine W) (p : EditModel)
    (e : ℕ) : ℝ≥0∞ :=
  (M.record? args e).elim 0 fun r =>
    if r.action = .ABS then 1 else p (r.source.getD (startKey args.sizes)) r.edit?

variable {W : Type*} [One W] {ord : HashOrder} {args : Args} {M : Machine W} {c d : Context}
  {p : EditModel} {left low : List Sym}

theorem probs_of_move (h : contextualEdit W ord args = some M) (hV : args.Unreserved)
    (hc : IsKey args c) {m : Move} {t : Option Context} (hm : (m, t) ∈ moves args c) {e : ℕ}
    (he : M.fst.arc? e = some (stateNum ord args c, moveArc W ord args c (m, t))) :
    M.probs args p e = if m.action = .ABS then 1 else p c m.edit? := by
  rw [Machine.probs, record?_of_move h hV hc hm he, Option.elim_some, Option.getD_some]
  have hedit : (⟨some c, t, m.isym, m.osym, m.action⟩ : Record).edit? = m.edit? := by
    cases m <;> rfl
  rw [hedit]

/-- The context and the edit of an arc that does not read ahead. -/
def Machine.step? {W : Type*} (args : Args) (M : Machine W) (e : ℕ) :
    Option (Context × Option Edit) :=
  (M.record? args e).bind fun r =>
    if r.action = .ABS then none else some (r.source.getD (startKey args.sizes), r.edit?)

theorem step?_of_move (h : contextualEdit W ord args = some M) (hV : args.Unreserved)
    (hc : IsKey args c) {m : Move} {t : Option Context} (hm : (m, t) ∈ moves args c) {e : ℕ}
    (he : M.fst.arc? e = some (stateNum ord args c, moveArc W ord args c (m, t))) :
    M.step? args e = if m.action = .ABS then none else some (c, m.edit?) := by
  rw [Machine.step?, record?_of_move h hV hc hm he, Option.bind_some, Option.getD_some]
  have hedit : (⟨some c, t, m.isym, m.osym, m.action⟩ : Record).edit? = m.edit? := by
    cases m <;> rfl
  rw [hedit]

/-- A path weighs as much as its steps. -/
theorem pathWeight_probs (h : contextualEdit W ord args = some M) (p : EditModel) {path : List ℕ}
    (hpath : ∀ e ∈ path, e < M.fst.numArcs) : pathWeight (M.probs args p) path =
      ((path.filterMap (M.step? args)).map fun s => p s.1 s.2).prod := by
  induction path with
  | nil => rfl
  | cons e path ih =>
    obtain ⟨r, hr⟩ := Option.isSome_iff_exists.mp (record?_isSome h (hpath e (by simp)))
    rw [pathWeight_cons, ih fun f hf => hpath f (by simp [hf]), Machine.probs, hr, Option.elim_some]
    by_cases habs : r.action = .ABS
    · simp [Machine.step?, hr, habs]
    · simp [Machine.step?, hr, habs]

/-! ### Positions of the model and contexts of the machine -/

/-- The left contexts of `c` show the ends of what was consumed and of what was written. -/
structure Shows (args : Args) (c : Context) (left low : List Sym) : Prop where
  ulc : c.ulc = (left.reverse ++ [stopStartChar]).take args.sizes.ulcMax
  llc : c.llc = (low.reverse ++ [stopStartChar]).take args.sizes.llcMax

theorem take_cons_of_le_one {n : ℕ} (hn : n ≤ 1) (v : Sym) (l l' : List Sym) :
    (v :: l).take n = (v :: l').take n := by
  obtain rfl | rfl : n = 0 ∨ n = 1 := by omega
  · rfl
  · rfl

theorem shows_start (hu : args.sizes.ulcMax ≤ 1) (hl : args.sizes.llcMax ≤ 1) :
    Shows args (startKey args.sizes) [] [] := by
  obtain hu | hu : args.sizes.ulcMax = 0 ∨ args.sizes.ulcMax = 1 := by omega
  all_goals
    obtain hl | hl : args.sizes.llcMax = 0 ∨ args.sizes.llcMax = 1 := by omega
    all_goals constructor <;> simp [startKey, hu, hl]

theorem Shows.ins (h : Shows args c left low) (hl : args.sizes.llcMax ≤ 1) (v : Sym) :
    Shows args (insKey args.sizes c v) left (low ++ [v]) := by
  refine ⟨h.ulc, ?_⟩
  rw [List.reverse_append]
  exact take_cons_of_le_one hl v _ _

theorem Shows.del (h : Shows args c left low) (hu : args.sizes.ulcMax ≤ 1) (u : Sym) :
    Shows args (delKey args.sizes c u) (left ++ [u]) low := by
  refine ⟨?_, h.llc⟩
  rw [List.reverse_append]
  exact take_cons_of_le_one hu u _ _

theorem Shows.sub (_ : Shows args c left low) (hu : args.sizes.ulcMax ≤ 1)
    (hl : args.sizes.llcMax ≤ 1) (u v : Sym) :
    Shows args (subKey args.sizes c u v) (left ++ [u]) (low ++ [v]) := by
  constructor
  · rw [List.reverse_append]
    exact take_cons_of_le_one hu u _ _
  · rw [List.reverse_append]
    exact take_cons_of_le_one hl v _ _

/-- A full right context shows what comes next. -/
theorem Shows.window_eq (h : Shows args c left low) (hb : isBold args.sizes c)
    {rest right : List Sym} (hp : Pending args c rest right) : c = window args left right low := by
  have hurc : c.urc = (right ++ padding args).take args.sizes.urcMax := by
    rw [← hp.2, ← (isBold_iff.mp hb).2.1, List.take_left]
  rw [window, ← h.ulc, ← h.llc, ← hurc]

/-- What can be consumed is the next symbol of the upper string. -/
theorem Pending.consume (hr : 1 ≤ args.sizes.urcMax) (hb : isBold args.sizes c)
    {rest right l : List Sym} {u : Sym} (hp : Pending args c rest right) (hurc : c.urc = u :: l)
    (hs : u ≠ stopStartChar) :
    ∃ right', right = u :: right' ∧ ∀ d : Context, d.urc = bump2 c.urc →
      Pending args d rest right' := by
  have hlen := (isBold_iff.mp hb).2.1
  rcases right with _ | ⟨u', right'⟩
  · have hu : u ∈ padding args := by simp [← ((urc_of_full hlen hr hp).1 rfl).1, hurc]
    exact absurd (List.eq_of_mem_replicate hu) hs
  · obtain ⟨l', hurc', hrest⟩ := (urc_of_full hlen hr hp).2 u' right' rfl
    obtain ⟨rfl, rfl⟩ := List.cons.inj (hurc.symm.trans hurc')
    refine ⟨right', rfl, fun d hd => ⟨fun s hs => hp.1 s (by simp [hs]), ?_⟩⟩
    rw [hd, hurc]
    exact hrest

/-- Where the upper string may end, it has ended. -/
theorem Pending.eq_nil (hV : args.Valid) (hr : 1 ≤ args.sizes.urcMax) {rest right : List Sym}
    (hp : Pending args c rest right) (hlen : c.urc.length = args.sizes.urcMax)
    (hall : ∀ s ∈ c.urc, s = stopStartChar) : right = [] := by
  rcases right with _ | ⟨u, right⟩
  · rfl
  · obtain ⟨l, hurc, -⟩ := (urc_of_full hlen hr hp).2 u right rfl
    have hu : u = stopStartChar := hall u (by simp [hurc])
    exact absurd (hu ▸ hp.1 u (by simp)) hV.upper.sharp

/-! ### Steps -/

/-- The contexts and the edits of a script; what a step consumes is the next symbol. -/
def steps (args : Args) : List Sym → List Sym → List Sym → List Edit → List (Context × Option Edit)
  | left, right, low, [] => [(window args left right low, none)]
  | left, right, low, .ins v :: es =>
    (window args left right low, some (.ins v)) :: steps args left right (low ++ [v]) es
  | left, right, low, .sub v :: es =>
    (window args left right low, some (.sub v)) :: steps args (left ++ right.take 1) right.tail
      (low ++ [v]) es
  | left, right, low, .del :: es =>
    (window args left right low, some .del) :: steps args (left ++ right.take 1) right.tail low es

/-- The probability of a script is that of its steps. -/
theorem scriptProb_eq_prod (p : EditModel) {right : List Sym} {es : List Edit}
    (h : consumptions es = right.length) :
    scriptProb args p left right low es =
      ((steps args left right low es).map fun s => p s.1 s.2).prod := by
  induction es generalizing left right low with
  | nil =>
    obtain rfl : right = [] := List.length_eq_zero_iff.mp h.symm
    rw [scriptProb, steps, List.map_singleton, List.prod_singleton]
  | cons e es ih =>
    rw [consumptions_cons] at h
    cases e with
    | ins v =>
      rw [scriptProb, steps, List.map_cons, List.prod_cons, ih h]
    | sub v =>
      rcases right with _ | ⟨u, right⟩
      · exact absurd h (Nat.succ_ne_zero _)
      · rw [scriptProb, steps, List.map_cons, List.prod_cons, ih (Nat.succ.inj h)]
        rfl
    | del =>
      rcases right with _ | ⟨u, right⟩
      · exact absurd h (Nat.succ_ne_zero _)
      · rw [scriptProb, steps, List.map_cons, List.prod_cons, ih (Nat.succ.inj h)]
        rfl

/-- The steps of a path are those of its script. -/
theorem Traces.steps_eq (h : contextualEdit W ord args = some M) (hV : args.Valid)
    (hu : args.sizes.ulcMax ≤ 1) (hl : args.sizes.llcMax ≤ 1) (hr : 1 ≤ args.sizes.urcMax)
    {path : List ℕ} {ms : List Move} (htr : Traces ord args M c path ms) (hc : IsKey args c)
    {right : List Sym} (hshow : Shows args c left low) (hp : Pending args c (reading ms) right) :
    path.filterMap (M.step? args) = steps args left right low (editsOf ms) := by
  have hsz : Completes args := .inl hu
  induction htr generalizing left right low with
  | @final c e hm he =>
    obtain ⟨-, hlen, hall⟩ := mem_moves_final.mp hm
    have hb := (isBold_iff_length_urc hu hl hc).mpr hlen
    obtain rfl := hp.eq_nil hV hr hlen hall
    rw [List.filterMap_cons_some (step?_of_move h hV.unreserved hc hm he), hshow.window_eq hb hp]
    rfl
  | @step c d e m path ms hm he _ ih =>
    have hd := target_isKey hsz hc hm
    have hstep := step?_of_move h hV.unreserved hc hm he
    cases m with
    | final => simpa using (mem_moves_final.mp hm).1
    | ins v =>
      obtain ⟨hb, -, hd'⟩ := mem_moves_ins.mp hm
      obtain rfl := Option.some.inj hd'
      rw [if_neg (by simp [Move.action]), hshow.window_eq hb hp] at hstep
      rw [List.filterMap_cons_some hstep, ih hd (hshow.ins hl v) hp]
      rfl
    | sub v =>
      obtain ⟨hb, -, u, l, hurc, hs, hd'⟩ := mem_moves_sub.mp hm
      obtain rfl := Option.some.inj hd'
      rw [if_neg (by simp [Move.action]), hshow.window_eq hb hp] at hstep
      obtain ⟨right', rfl, hnext⟩ := hp.consume hr hb hurc hs
      rw [List.filterMap_cons_some hstep, ih hd (hshow.sub hu hl u v) (hnext _ rfl)]
      rfl
    | del =>
      obtain ⟨hb, u, l, hurc, hs, hd'⟩ := mem_moves_del.mp hm
      obtain rfl := Option.some.inj hd'
      rw [if_neg (by decide), hshow.window_eq hb hp] at hstep
      obtain ⟨right', rfl, hnext⟩ := hp.consume hr hb hurc hs
      rw [List.filterMap_cons_some hstep, ih hd (hshow.del hu u) (hnext _ rfl)]
      rfl
    | abs v =>
      obtain ⟨hb, -, -, -, hd'⟩ := mem_moves_abs.mp hm
      obtain rfl := Option.some.inj hd'
      rw [if_pos (show (Move.abs v).action = .ABS from rfl)] at hstep
      rw [List.filterMap_cons_none hstep]
      exact ih hd ⟨hshow.ulc, hshow.llc⟩
        (abs_mem_moves hV hr hb (length_urc_lt hu hl hc hb) hp).2

/-- The steps of a path that relates two strings. -/
theorem steps_labels (h : contextualEdit W ord args = some M) (hV : args.Valid)
    (hu : args.sizes.ulcMax ≤ 1) (hl : args.sizes.llcMax ≤ 1) (hr : 1 ≤ args.sizes.urcMax)
    {x y : List Sym} (hx : ∀ s ∈ x, s ∈ args.V1) {path : List ℕ}
    (hpath : M.Labels args (x ++ padding args) y path) :
    path.filterMap (M.step? args) = steps args [] x [] (M.edits args path) := by
  obtain ⟨ms, htr, hread, -⟩ := (labels_iff h hV.unreserved hu hl).mp hpath
  have hp : Pending args (startKey args.sizes) (reading ms) x := pending_start.mpr ⟨hx, hread⟩
  rw [(htr.labels h hV.unreserved (.inl hu) startKey_isKey).2.2]
  exact htr.steps_eq h hV hu hl hr startKey_isKey (shows_start hu hl) hp

theorem exists_move_of_step? (h : contextualEdit W ord args = some M) (hV : args.Unreserved) {e : ℕ}
    {s : Context × Option Edit} (hs : M.step? args e = some s) :
    ∃ c m t, IsKey args c ∧ (m, t) ∈ moves args c ∧
      M.fst.arc? e = some (stateNum ord args c, moveArc W ord args c (m, t)) ∧ m.action ≠ .ABS ∧
        s = (c, m.edit?) := by
  obtain ⟨r, hr, -⟩ := Option.bind_eq_some_iff.mp hs
  obtain ⟨c, m, t, hc, hm, he, -⟩ := exists_move_of_record? h hV hr
  rw [step?_of_move h hV hc hm he] at hs
  split_ifs at hs with habs
  exact ⟨c, m, t, hc, hm, he, habs, (Option.some.inj hs).symm⟩

theorem move_eq_of_edit? {m m' : Move} (hm : m.action ≠ .ABS) (hm' : m'.action ≠ .ABS)
    (h : m.edit? = m'.edit?) : m = m' := by
  cases m <;> cases m' <;> simp_all [Move.action, Move.edit?]

/-- Two arcs that do not read ahead differ in their context or in their edit. -/
theorem step?_inj (h : contextualEdit W ord args = some M) (hV : args.Valid) {e e' : ℕ}
    {s : Context × Option Edit} (hs : M.step? args e = some s) (hs' : M.step? args e' = some s) :
    e = e' := by
  obtain ⟨c, m, t, hc, hm, he, habs, rfl⟩ := exists_move_of_step? h hV.unreserved hs
  obtain ⟨c', m', t', -, hm', he', habs', heq⟩ := exists_move_of_step? h hV.unreserved hs'
  obtain ⟨rfl, hedit⟩ := Prod.mk.inj heq
  obtain rfl := move_eq_of_edit? habs habs' hedit
  obtain rfl := target_unique hm hm'
  exact arc_unique h hV (completes_of_contextualEdit h hV.unreserved) hc hm he he'

/-- A path takes a step as often as it uses the arc. -/
theorem count_step (h : contextualEdit W ord args = some M) (hV : args.Valid) {e : ℕ}
    {s : Context × Option Edit} (hs : M.step? args e = some s) (path : List ℕ) :
    (path.filterMap (M.step? args)).count s = path.count e := by
  rw [List.count_filterMap, List.count]
  apply List.countP_congr
  intro f _
  rw [beq_iff_eq, beq_iff_eq]
  constructor
  · exact fun hf => step?_inj h hV hf hs
  · rintro rfl
    exact hs

/-- A path that relates two strings weighs as much as its script. -/
theorem pathWeight_labels (h : contextualEdit W ord args = some M) (hV : args.Valid)
    (hu : args.sizes.ulcMax ≤ 1) (hl : args.sizes.llcMax ≤ 1) (hr : 1 ≤ args.sizes.urcMax)
    (p : EditModel) {x y : List Sym} (hx : ∀ s ∈ x, s ∈ args.V1) (hy : ∀ s ∈ y, s ∈ args.V2)
    {path : List ℕ} (hpath : M.Labels args (x ++ padding args) y path) :
    pathWeight (M.probs args p) path = scriptProb args p [] x [] (M.edits args path) := by
  have hscript := (edits_bijOn h hV hu hl hr hx hy).mapsTo hpath
  have harcs : ∀ e ∈ path, e < M.fst.numArcs := by
    obtain ⟨⟨q, hq⟩, -⟩ := hpath
    intro e he
    obtain ⟨r, a, ha⟩ := VectorFst.exists_arc_of_mem hq he
    exact VectorFst.lt_numArcs_of_arc? ha
  rw [scriptProb_eq_prod p hscript.1, ← steps_labels h hV hu hl hr hx hpath]
  exact pathWeight_probs h p harcs

/-- The transducer gives a pair of strings the probability that the model gives it. -/
theorem totalWeight_labels (h : contextualEdit W ord args = some M) (hV : args.Valid)
    (hu : args.sizes.ulcMax ≤ 1) (hl : args.sizes.llcMax ≤ 1) (hr : 1 ≤ args.sizes.urcMax)
    (p : EditModel) {x y : List Sym} (hx : ∀ s ∈ x, s ∈ args.V1) (hy : ∀ s ∈ y, s ∈ args.V2) :
    totalWeight (M.probs args p) {path | M.Labels args (x ++ padding args) y path} =
      editProb args p x y := by
  have hbij : Set.BijOn (M.edits args) {path | M.Labels args (x ++ padding args) y path}
      (scripts x y) :=
    edits_bijOn h hV hu hl hr hx hy
  rw [totalWeight, editProb, ← (Set.BijOn.equiv _ hbij).tsum_eq]
  exact tsum_congr fun path => pathWeight_labels h hV hu hl hr p hx hy path.2

/-! ### The contexts of the model are the full contexts of the machine -/

theorem length_take_snoc {n : ℕ} (hn : n ≤ 1) (l : List Sym) (v : Sym) :
    ((l ++ [v]).take n).length = n := by
  rw [List.length_take, List.length_append, List.length_singleton]
  omega

theorem isBold_window (hu : args.sizes.ulcMax ≤ 1) (hl : args.sizes.llcMax ≤ 1)
    (left right low : List Sym) :
    isBold args.sizes (window args left right low) := by
  refine isBold_iff.mpr ⟨length_take_snoc hu _ _, ?_, length_take_snoc hl _ _⟩
  simp [window, padding]

theorem window_isKey (hV : args.Valid) (hu : args.sizes.ulcMax ≤ 1) (hl : args.sizes.llcMax ≤ 1)
    {left right low : List Sym} (hleft : ∀ s ∈ left ++ right, s ∈ args.V1)
    (hlow : ∀ s ∈ low, s ∈ args.V2) :
    IsKey args (window args left right low) := by
  obtain ⟨hulc, hurc, hllc⟩ := isBold_iff.mp (isBold_window hu hl left right low)
  have hpad : ∀ s ∈ right ++ padding args, s ∈ args.V1 ∨ s = stopStartChar :=
    mem_padded fun s hs => hleft s (List.mem_append_right _ hs)
  have hedge {V : List Sym} {l : List Sym} (hV : ∀ s ∈ l, s ∈ V) {n : ℕ} :
      ∀ s ∈ (l.reverse ++ [stopStartChar]).take n, s ∈ V ∨ s = stopStartChar := by
    intro s hs
    rcases List.mem_append.mp (List.mem_of_mem_take hs) with hs | hs
    · exact .inl (hV s (List.mem_reverse.mp hs))
    · exact .inr (List.mem_singleton.mp hs)
  have hsharp : sharpAtEnd (window args left right low).urc := by
    have hall := (sharpAtEnd_iff _).mp (@sharpAtEnd_append_padding args right fun hmem =>
      hV.upper.sharp (hleft _ (List.mem_append_right _ hmem)))
    exact (sharpAtEnd_iff _).mpr (hall.sublist (List.take_sublist _ _))
  constructor
  · refine ⟨sharpAtBeginning_of_length_le_one (by omega), hsharp, fun h => ?_, fun h => ?_⟩
    · rw [← hulc, h]
      rfl
    · rw [← hllc, h]
      rfl
  · exact hulc.le
  · exact hurc.le
  · exact hllc.le
  · exact hedge fun s hs => hleft s (List.mem_append_left _ hs)
  · exact fun s hs => hpad s (List.mem_of_mem_take hs)
  · exact hedge hlow

/-- The moves of a full context are the edits that can be made there, in the same order. -/
theorem map_moves_window (hV : args.Valid) (hu : args.sizes.ulcMax ≤ 1) (hl : args.sizes.llcMax ≤ 1)
    (hr : 1 ≤ args.sizes.urcMax) {left right low : List Sym} (hright : ∀ s ∈ right, s ∈ args.V1) :
    (moves args (window args left right low)).map (fun m => m.1.edit?) = options args right := by
  have hb : isBold args.sizes (window args left right low) := isBold_window hu hl left right low
  obtain ⟨n, hn⟩ := Nat.exists_eq_add_of_le' hr
  rw [moves, if_pos hb, boldMoves, List.map_append, List.map_append, List.map_map]
  rcases right with _ | ⟨u, right⟩
  · have hurc : (window args left [] low).urc = stopStartChar ::
        List.replicate n stopStartChar := by
      simp [window, padding, hn, List.replicate_succ]
    have hall : allStopStart (window args left [] low).urc := by
      rw [hurc, allStopStart_iff]
      intro s hs
      exact List.eq_of_mem_replicate (List.replicate_succ (n := n) ▸ hs)
    rw [finalMoves, if_pos ⟨(isBold_iff.mp hb).2.1, hall⟩, consumingMoves, hurc]
    simp [options, Move.edit?]
  · have hurc : (window args left (u :: right) low).urc = u :: (right ++ padding args).take n := by
      simp [window, hn]
    have hs : u ≠ stopStartChar := fun hs => hV.upper.sharp (hs ▸ hright u (by simp))
    have hall : ¬ allStopStart (window args left (u :: right) low).urc := by
      rw [hurc, allStopStart_iff]
      exact fun h => hs (h u (by simp))
    rw [finalMoves, if_neg fun h => hall h.2, consumingMoves, hurc]
    simp [options, Move.edit?, hs, Function.comp_def]

/-- The boundary symbols of a right context follow its other symbols. -/
theorem exists_padded {l : List Sym} (hl : sharpAtEnd l) :
    ∃ right, stopStartChar ∉ right ∧ (∀ s ∈ right, s ∈ l) ∧
      ∀ n, l.length ≤ n → l = (right ++ List.replicate n stopStartChar).take l.length := by
  rw [sharpAtEnd_iff] at hl
  induction l with
  | nil => exact ⟨[], List.not_mem_nil, by simp, by simp⟩
  | cons u l ih =>
    obtain ⟨hu, hl⟩ := List.pairwise_cons.mp hl
    by_cases hs : u = stopStartChar
    · refine ⟨[], List.not_mem_nil, by simp, fun n hn => ?_⟩
      rw [List.nil_append, List.take_replicate, Nat.min_eq_left hn]
      apply List.eq_replicate_of_mem
      intro s hmem
      rcases List.mem_cons.mp hmem with rfl | hmem
      · exact hs
      · exact hu s hmem hs
    · obtain ⟨right, hright, hmem, heq⟩ := ih hl
      refine ⟨u :: right, ?_, ?_, fun n hn => ?_⟩
      · intro h
        rcases List.mem_cons.mp h with h | h
        · exact hs h.symm
        · exact hright h
      · intro s h
        rcases List.mem_cons.mp h with rfl | h
        · exact List.mem_cons_self
        · exact List.mem_cons_of_mem u (hmem s h)
      · rw [List.length_cons] at hn ⊢
        rw [List.cons_append, List.take_succ_cons, ← heq n (by omega)]

/-- A full left context of length at most 1 shows the end of some string. -/
theorem exists_shown {l V : List Sym} {n : ℕ} (hn : n ≤ 1) (hlen : l.length = n)
    (hl : ∀ s ∈ l, s ∈ V ∨ s = stopStartChar) :
    ∃ string : List Sym, (∀ s ∈ string, s ∈ V) ∧
      l = (string.reverse ++ [stopStartChar]).take n := by
  obtain rfl | rfl : n = 0 ∨ n = 1 := by omega
  · exact ⟨[], by simp, List.length_eq_zero_iff.mp hlen⟩
  · obtain ⟨s, rfl⟩ := List.length_eq_one_iff.mp hlen
    rcases hl s List.mem_cons_self with hs | rfl
    · exact ⟨[s], by simpa using hs, rfl⟩
    · exact ⟨[], by simp, rfl⟩

/-- Every full context of the machine is a context of the model. -/
theorem exists_window (hu : args.sizes.ulcMax ≤ 1) (hl : args.sizes.llcMax ≤ 1) (hc : IsKey args c)
    (hb : isBold args.sizes c) : ∃ left right low, (∀ s ∈ left ++ right, s ∈ args.V1) ∧
      (∀ s ∈ low, s ∈ args.V2) ∧ c = window args left right low := by
  obtain ⟨hulc, hurc, hllc⟩ := isBold_iff.mp hb
  obtain ⟨left, hleft, hulc'⟩ := exists_shown hu hulc hc.ulc_mem
  obtain ⟨low, hlow, hllc'⟩ := exists_shown hl hllc hc.llc_mem
  obtain ⟨right, hsharp, hright, hurc'⟩ := exists_padded hc.urc_sharp
  refine ⟨left, right, low, ?_, hlow, ?_⟩
  · intro s hs
    rcases List.mem_append.mp hs with hs | hs
    · exact hleft s hs
    · rcases hc.urc_mem s (hright s hs) with h | rfl
      · exact h
      · exact absurd hs hsharp
  · have hwindow := hurc' args.sizes.urcMax hurc.le
    rw [hurc] at hwindow
    rw [window, ← hulc', ← hllc', padding, ← hwindow]

end StochasticEdit.Generator
