import StochasticEdit.Pipeline.Maximisation

/-! The balance of the E-step. Its counts are a flow: one unit for each training pair goes from
the start state to the final state, and nothing is lost on the way. Each kind of arc gets what
the pairs require, whatever the model is: a symbol is consumed or written as often as it
stands in the pairs. -/

namespace StochasticEdit.Pipeline

open Wfst Generator Features Trainer Evaluation Text
open scoped ENNReal

/-- The counts of the arcs with a property. -/
noncomputable def countOn (F : VectorFst LogWeight) (counts : List EReal) (S : ℕ → Prop)
    [DecidablePred S] : ℝ≥0∞ :=
  ∑ e ∈ Finset.range F.numArcs with S e, tally counts e

/-- What flows into a state. -/
noncomputable def inflow (F : VectorFst LogWeight) (counts : List EReal) (q : ℕ) : ℝ≥0∞ :=
  countOn F counts fun e => (F.ends e).map Prod.snd = some q

/-- What flows out of a state. -/
noncomputable def outflow (F : VectorFst LogWeight) (counts : List EReal) (q : ℕ) : ℝ≥0∞ :=
  countOn F counts fun e => (F.ends e).map Prod.fst = some q

/-- The counts of the arcs of an action. -/
noncomputable def actionCount (args : Args) (M : Machine LogWeight) (counts : List EReal)
    (a : Action) : ℝ≥0∞ :=
  countOn M.fst counts fun e => (M.record? args e).map Record.action = some a

/-! ### Means over the paths of a lattice -/

section Means
variable (comp : Composer) (F : VectorFst LogWeight)
  (exemplar : VectorFst LogWeight × VectorFst LogWeight) (w : ℕ → LogWeight)

/-- The mean of a function of the paths of the machine, by the weights of the lattice. -/
noncomputable def pathMean (f : List ℕ → ℝ≥0∞) : ℝ≥0∞ :=
  (tsum fun path => f (machinePath comp F exemplar path) *
    (logLattice comp (weighted F w) exemplar).value path) /
    (logLattice comp (weighted F w) exemplar).shortestDistance

variable {comp F exemplar w} {f g : List ℕ → ℝ≥0∞}

theorem pathMean_congr (h : ∀ path, (latticeOrigins comp F exemplar).Accepts path →
    f (machinePath comp F exemplar path) = g (machinePath comp F exemplar path)) :
    pathMean comp F exemplar w f = pathMean comp F exemplar w g := by
  unfold pathMean
  apply congrArg (· / _)
  apply tsum_congr
  intro path
  by_cases hzero : (logLattice comp (weighted F w) exemplar).value path = 0
  · rw [hzero, mul_zero, mul_zero]
  · rw [h path (accepts_of_value_ne_zero hzero)]

theorem pathMean_add (f g : List ℕ → ℝ≥0∞) : pathMean comp F exemplar w
    (fun path => f path + g path) =
    pathMean comp F exemplar w f + pathMean comp F exemplar w g := by
  unfold pathMean
  rw [← ENNReal.add_div, ← ENNReal.tsum_add]
  apply congrArg (· / _)
  apply tsum_congr
  intro path
  exact add_mul _ _ _

theorem pathMean_const (hzero : (logLattice comp (weighted F w) exemplar).shortestDistance ≠ 0)
    (htop : (logLattice comp (weighted F w) exemplar).shortestDistance ≠ ⊤) (k : ℝ≥0∞) :
    pathMean comp F exemplar w (fun _ => k) = k := by
  unfold pathMean
  rw [ENNReal.tsum_mul_left]
  show k * (logLattice comp (weighted F w) exemplar).shortestDistance / _ = k
  rw [mul_div_assoc, ENNReal.div_self hzero htop, mul_one]

theorem sum_count_eq {S : ℕ → Prop} [DecidablePred S] {K : ℕ} {l : List ℕ} (hl : ∀ e ∈ l, e < K) :
    ∑ e ∈ Finset.range K with S e, l.count e = l.countP S := by
  induction l with
  | nil => simp
  | cons b l ih =>
    have hb : b ∈ Finset.range K := Finset.mem_range.mpr (hl b (by simp))
    have hone : (∑ e ∈ Finset.range K with S e, if b = e then 1 else 0) = if S b then 1 else 0 := by
      rw [Finset.sum_ite_eq]
      simp [hl b (by simp)]
    simp only [List.count_cons, List.countP_cons, Finset.sum_add_distrib, beq_iff_eq,
      decide_eq_true_eq]
    rw [ih fun e he => hl e (by simp [he]), hone]

/-- The expected traversals of some arcs are the mean number of these arcs on a path. -/
theorem sum_expectedTraversals (hpath : ∀ path, (latticeOrigins comp F exemplar).Accepts path →
    ∀ e ∈ machinePath comp F exemplar path, e < F.numArcs) (S : ℕ → Prop) [DecidablePred S] :
    ∑ e ∈ Finset.range F.numArcs with S e, expectedTraversals comp F exemplar w e =
      pathMean comp F exemplar w fun path => path.countP S := by
  unfold expectedTraversals traversalSum pathMean
  simp only [div_eq_mul_inv, filterMap_traversed?]
  rw [← Finset.sum_mul, ← Summable.tsum_finsetSum fun _ _ => ENNReal.summable]
  apply congrArg (· * _)
  apply tsum_congr
  intro path
  rw [← Finset.sum_mul]
  by_cases hzero : (logLattice comp (weighted F w) exemplar).value path = 0
  · rw [hzero, mul_zero, mul_zero]
  · apply congrArg (· * _)
    exact_mod_cast congrArg (fun k : ℕ => (k : ℝ≥0∞))
      (sum_count_eq (hpath path (accepts_of_value_ne_zero hzero)))

end Means

/-! ### The arcs of a path -/

section Paths
variable {W : Type*} [One W] {ord : HashOrder} {args : Args} {M : Machine W} {c : Context}
  {path : List ℕ} {ms : List Move}

/-- The number of moves of an action. -/
def movesOf (a : Action) (ms : List Move) : ℕ := ms.countP fun m => m.action = a

theorem movesOf_cons (a : Action) (m : Move) (ms : List Move) :
    movesOf a (m :: ms) = movesOf a ms + if m.action = a then 1 else 0 := by
  unfold movesOf
  rw [List.countP_cons]
  simp only [decide_eq_true_eq]

/-- The arcs of a path have the actions of its moves. -/
theorem Traces.countP_action (h : contextualEdit W ord args = some M) (hV : args.Valid)
    (hsz : Completes args) (htr : Traces ord args M c path ms) (hc : IsKey args c) (a : Action) :
    path.countP (fun e => (M.record? args e).map Record.action = some a) = movesOf a ms := by
  have hfirst {c : Context} {e : ℕ} {m : Move} {t : Option Context} (hc : IsKey args c)
    (hm : (m, t) ∈ moves args c)
      (he : M.fst.arc? e = some (stateNum ord args c, moveArc W ord args c (m, t))) :
      (M.record? args e).map Record.action = some m.action := by
    rw [record?_of_move h hV.unreserved hc hm he]
    rfl
  induction htr with
  | final hm he =>
    rw [movesOf_cons, List.countP_cons, hfirst hc hm he]
    simp [movesOf]
  | step hm he _ ih =>
    rw [movesOf_cons, List.countP_cons, hfirst hc hm he, ih (target_isKey hsz hc hm)]
    simp

theorem Traces.movesOf_final (htr : Traces ord args M c path ms) : movesOf .FINAL ms = 1 := by
  induction htr with
  | final _ _ => rfl
  | @step c d e m path ms hm _ _ ih =>
    have hne : m.action ≠ .FINAL := by
      intro heq
      cases m with
      | final => simpa using (mem_moves_final.mp hm).1
      | _ => cases heq
    rw [movesOf_cons, ih, if_neg hne]

theorem movesOf_abs (ms : List Move) : movesOf .ABS ms = (reading ms).length := by
  induction ms with
  | nil => rfl
  | cons m ms ih =>
    rw [movesOf_cons, ih, reading_cons, List.length_append]
    cases m <;> simp [Move.action, Move.read?, Nat.add_comm]

/-- Consuming moves are substitutions and deletions. -/
theorem movesOf_consuming (ms : List Move) : movesOf .SUB ms + movesOf .DEL ms = consumptions
    (editsOf ms) := by
  induction ms with
  | nil => rfl
  | cons m ms ih =>
    rw [movesOf_cons, movesOf_cons, editsOf_cons]
    cases m <;> simp [Move.action, Move.edit?, consumptions_cons, Edit.consumes] <;> omega

/-- Writing moves are insertions and substitutions. -/
theorem movesOf_writing (ms : List Move) :
    movesOf .INS ms + movesOf .SUB ms = (spelled (editsOf ms)).length := by
  induction ms with
  | nil => rfl
  | cons m ms ih =>
    rw [movesOf_cons, movesOf_cons, editsOf_cons]
    cases m <;> simp [Move.action, Move.edit?, spelled_cons, Edit.symbol?] <;> omega

end Paths

/-! ### One pair -/

section Pairs
variable {comp : Composer} {ord : HashOrder} {args : Args} {M : Machine LogWeight}
  {p : List Sym × List Sym} {m : EditModel}

theorem shortestDistance_probs (h : contextualEdit LogWeight ord args = some M) (hV : args.Valid)
    (hu : args.sizes.ulcMax ≤ 1) (hl : args.sizes.llcMax ≤ 1) (hr : 1 ≤ args.sizes.urcMax)
    (hp : Over args p) (hexact : ExactLattice comp M.fst (exemplar args p)) (m : EditModel) :
    (logLattice comp (weighted M.fst (M.probs args m)) (exemplar args p)).shortestDistance =
      editProb args m p.1 p.2 := by
  rw [shortestDistance_eq h hV _ hp hexact, totalWeight_labels h hV hu hl hr m hp.1 hp.2]

/-- A path of the lattice makes moves that read the padded upper string and turn the one string
into the other. -/
theorem exists_traces (h : contextualEdit LogWeight ord args = some M) (hV : args.Valid)
    (hu : args.sizes.ulcMax ≤ 1) (hl : args.sizes.llcMax ≤ 1) (hr : 1 ≤ args.sizes.urcMax)
    (hp : Over args p) (hexact : ExactLattice comp M.fst (exemplar args p)) {path : List ℕ}
    (hpath : (latticeOrigins comp M.fst (exemplar args p)).Accepts path) :
    ∃ ms, Traces ord args M (startKey args.sizes)
      (machinePath comp M.fst (exemplar args p) path) ms ∧
      reading ms = p.1 ++ padding args ∧ editsOf ms ∈ scripts p.1 p.2 := by
  have hlabels := machinePath_labels hV hp hexact hpath
  obtain ⟨ms, htr, hread, -⟩ := (labels_iff h hV.unreserved hu hl).mp hlabels
  have hscript := (latticeScript_bijOn h hV hu hl hr hp hexact).mapsTo hpath
  refine ⟨ms, htr, hread, ?_⟩
  rwa [← (htr.labels h hV.unreserved (.inl hu) startKey_isKey).2.2]

variable (h : contextualEdit LogWeight ord args = some M) (hV : args.Valid)
  (hu : args.sizes.ulcMax ≤ 1) (hl : args.sizes.llcMax ≤ 1) (hr : 1 ≤ args.sizes.urcMax)
  (hp : Over args p) (hexact : ExactLattice comp M.fst (exemplar args p)) (hpos : ∀ c o, m c o ≠ 0)
  (hm : ∀ c o, m c o ≠ ⊤)

include h hV hu hl hr hp hexact

theorem sum_traversals_eq (m : EditModel) (S : ℕ → Prop) [DecidablePred S] :
    ∑ e ∈ Finset.range M.fst.numArcs with S e,
      expectedTraversals comp M.fst (exemplar args p) (M.probs args m) e =
      pathMean comp M.fst (exemplar args p) (M.probs args m) fun path => path.countP S := by
  apply sum_expectedTraversals
  intro path hpath e he
  obtain ⟨ms, htr, -⟩ := exists_traces h hV hu hl hr hp hexact hpath
  obtain ⟨q, a, ha⟩ := VectorFst.exists_arc_of_walk htr.walk he
  exact VectorFst.lt_numArcs_of_arc? ha

include hpos hm

/-- What every path has is the mean. -/
theorem pathMean_eq {f : List ℕ → ℝ≥0∞} {k : ℝ≥0∞} (hf : ∀ path ms,
    Traces ord args M (startKey args.sizes) path ms → reading ms = p.1 ++ padding args →
      editsOf ms ∈ scripts p.1 p.2 → f path = k) :
    pathMean comp M.fst (exemplar args p) (M.probs args m) f = k := by
  have hdistance := shortestDistance_probs h hV hu hl hr hp hexact m
  rw [editProb_eq_partition hpos hm] at hdistance
  refine (pathMean_congr (g := fun _ => k) fun path hpath => ?_).trans (pathMean_const ?_ ?_ k)
  · obtain ⟨ms, htr, hread, hscript⟩ := exists_traces h hV hu hl hr hp hexact hpath
    exact hf _ ms htr hread hscript
  · rw [hdistance]
    exact (ENNReal.ofReal_pos.mpr (partition_scripts_pos args m p.1 p.2)).ne'
  · rw [hdistance]
    exact ENNReal.ofReal_ne_top

/-- One unit flows from the start state to the final state. -/
theorem flow_pair (q : ℕ) :
    ∑ e ∈ Finset.range M.fst.numArcs with (M.fst.ends e).map Prod.snd = some q,
        expectedTraversals comp M.fst (exemplar args p) (M.probs args m) e +
          (if stateNum ord args (startKey args.sizes) = q then 1 else 0) =
      ∑ e ∈ Finset.range M.fst.numArcs with (M.fst.ends e).map Prod.fst = some q,
        expectedTraversals comp M.fst (exemplar args p) (M.probs args m) e +
          (if 0 = q then 1 else 0) := by
  have hconst (k : ℝ≥0∞) : pathMean comp M.fst (exemplar args p) (M.probs args m)
      (fun _ => k) = k :=
    pathMean_eq h hV hu hl hr hp hexact hpos hm fun _ _ _ _ _ => rfl
  rw [sum_traversals_eq h hV hu hl hr hp hexact, sum_traversals_eq h hV hu hl hr hp hexact,
    ← hconst (if stateNum ord args (startKey args.sizes) = q then 1 else 0), ← hconst
      (if 0 = q then 1 else 0), ← pathMean_add, ← pathMean_add]
  apply pathMean_congr
  intro path hpath
  obtain ⟨ms, htr, -⟩ := exists_traces h hV hu hl hr hp hexact hpath
  have hbalance := entrances_add_eq htr.walk q
  unfold entrances exits at hbalance
  exact_mod_cast hbalance

/-- The arcs of an action, if every path has the same number of them. -/
theorem action_pair {as : List Action} {k : ℕ} (hk : ∀ path ms,
    Traces ord args M (startKey args.sizes) path ms → reading ms = p.1 ++ padding args →
      editsOf ms ∈ scripts p.1 p.2 → (as.map fun a => movesOf a ms).sum = k) :
    (as.map
      fun a => ∑ e ∈ Finset.range M.fst.numArcs with (M.record? args e).map Record.action = some a,
      expectedTraversals comp M.fst (exemplar args p) (M.probs args m) e).sum = k := by
  have hsum : (as.map
    fun a => ∑ e ∈ Finset.range M.fst.numArcs with (M.record? args e).map Record.action = some a,
      expectedTraversals comp M.fst (exemplar args p) (M.probs args m) e).sum =
        pathMean comp M.fst (exemplar args p) (M.probs args m) fun path => ((as.map fun a =>
          path.countP fun e => (M.record? args e).map Record.action = some a).sum : ℕ) := by
    clear hk
    induction as with
    | nil =>
      rw [List.map_nil, List.sum_nil]
      exact (pathMean_eq h hV hu hl hr hp hexact hpos hm fun _ _ _ _ _ => Nat.cast_zero).symm
    | cons a as ih =>
      rw [List.map_cons, List.sum_cons, ih,
        sum_traversals_eq h hV hu hl hr hp hexact, ← pathMean_add]
      apply congrArg
      funext path
      rw [List.map_cons, List.sum_cons, Nat.cast_add]
  rw [hsum]
  apply pathMean_eq h hV hu hl hr hp hexact hpos hm
  intro path ms htr hread hscript
  have hactions :
      (as.map fun a => path.countP fun e => (M.record? args e).map Record.action = some a) =
      as.map fun a => movesOf a ms := by
    apply List.map_congr_left
    intro a _
    exact Traces.countP_action h hV (.inl hu) htr startKey_isKey a
  rw [hactions, hk path ms htr hread hscript]

end Pairs

/-! ### The training set -/

theorem countOn_eq {α : Type*} {F : VectorFst LogWeight} {counts : List EReal} {data : List α}
    {f : α → ℕ → ℝ≥0∞} (h : ∀ e, tally counts e = (data.map fun p => f p e).sum) (S : ℕ → Prop)
    [DecidablePred S] :
    countOn F counts S = (data.map fun p => ∑ e ∈ Finset.range F.numArcs with S e, f p e).sum := by
  unfold countOn
  simp only [h]
  clear h
  induction data with
  | nil => simp
  | cons p data ih => simp only [List.map_cons, List.sum_cons, Finset.sum_add_distrib, ih]

theorem sum_add_length {α : Type*} {data : List α} {f g : α → ℝ≥0∞} {k l : ℝ≥0∞}
    (h : ∀ p ∈ data, f p + k = g p + l) :
    (data.map f).sum + data.length * k = (data.map g).sum + data.length * l := by
  induction data with
  | nil => simp
  | cons p data ih =>
    have hrest := ih fun q hq => h q (List.mem_cons_of_mem p hq)
    have hfirst := h p List.mem_cons_self
    rw [List.map_cons, List.sum_cons, List.map_cons, List.sum_cons, List.length_cons, Nat.cast_add,
      Nat.cast_one]
    calc f p + (data.map f).sum + (data.length + 1) * k = (f p + k) +
      ((data.map f).sum + data.length * k) := by ring
      _ = (g p + l) + ((data.map g).sum + data.length * l) := by rw [hfirst, hrest]
      _ = g p + (data.map g).sum + (data.length + 1) * l := by ring

end StochasticEdit.Pipeline
