import StochasticEdit.Generator.Mass
import StochasticEdit.Wfst.Reading

/-! Does the transducer stop? While it reads a padded upper string it is in one of finitely
many positions. So no probability runs off into endless insertions exactly if every position
that it can reach lets it finish, which it always does if no arc has probability 0. -/

namespace StochasticEdit.Generator

open Wfst
open scoped ENNReal

variable {W : Type*} [One W] {ord : HashOrder} {args : Args} {M : Machine W} {c : Context}
  {pr : ℕ → ℝ≥0∞}

theorem endsFinally (h : contextualEdit W ord args = some M) : M.fst.EndsFinally := by
  intro q hq e a ha
  obtain rfl := (final?_isSome_iff h).mp hq
  obtain ⟨c, m, hc, h0, -⟩ := exists_move_of_arc? h ha
  have := stateNum_pos ord hc
  omega

/-- The accepting paths that read `u`. -/
def Machine.reads (args : Args) (M : Machine W) (u : List Sym) : Set (List ℕ) :=
  {p | M.fst.Accepts p ∧ Spells args.symsIn (M.fst.istring p) u}

/-! ### Positions -/

/-- A position while `u` is read: the state of a context and the unread rest of `u`, or the
final state at the end. -/
def positions (ord : HashOrder) (args : Args) (u : List Sym) : Set (ℕ × List ℤ) :=
  insert (0, []) {s | ∃ c rest x, IsKey args c ∧ rest <:+ u ∧ Pending args c rest x ∧
    s = (stateNum ord args c, rest.map (idIn args))}

theorem positions_finite (ord : HashOrder) (args : Args) (u : List Sym) :
    (positions ord args u).Finite := by
  have hfin : (Set.Iic (keys ord args).length ×ˢ
      {L : List ℤ | ∃ rest ∈ u.tails, rest.map (idIn args) = L}).Finite := by
    refine (Set.finite_Iic _).prod ((u.tails.map (List.map (idIn args))).finite_toSet.subset ?_)
    rintro L ⟨rest, hrest, rfl⟩
    exact List.mem_map_of_mem hrest
  refine (hfin.subset ?_).insert _
  rintro s ⟨c, rest, x, hc, hsuffix, -, rfl⟩
  exact ⟨stateNum_le ord hc, rest, (List.mem_tails _ _).mpr hsuffix, rfl⟩

/-- The position behind a move. -/
theorem Pending.read (hV : args.Valid) (hu : args.sizes.ulcMax ≤ 1) (hl : args.sizes.llcMax ≤ 1)
    (hr : 1 ≤ args.sizes.urcMax) (hc : IsKey args c) {rest x : List Sym}
    (hp : Pending args c rest x) {m : Move} {t : Option Context} (hm : (m, t) ∈ moves args c)
    {L : List ℤ} (hL : VectorFst.word (m.ilabel args) ++ L = rest.map (idIn args)) :
    (t = none ∧ L = []) ∨ ∃ d rest' y, t = some d ∧ rest' <:+ rest ∧ Pending args d rest' y ∧
      L = rest'.map (idIn args) := by
  cases m with
  | final =>
    obtain ⟨rfl, hlen, hall⟩ := mem_moves_final.mp hm
    have hx : x = [] := by
      rcases x with _ | ⟨u, x⟩
      · rfl
      · obtain ⟨l, hurc, -⟩ := (urc_of_full hlen hr hp).2 u x rfl
        have hu : u = stopStartChar := hall u (by simp [hurc])
        exact absurd (hu ▸ hp.1 u (by simp)) hV.upper.sharp
    obtain rfl := ((urc_of_full hlen hr hp).1 hx).2
    exact .inl ⟨rfl, hL⟩
  | ins v =>
    obtain ⟨-, -, rfl⟩ := mem_moves_ins.mp hm
    exact .inr ⟨_, rest, x, rfl, List.suffix_refl _, hp, hL⟩
  | sub v =>
    obtain ⟨hb, -, u, l, hurc, hs, rfl⟩ := mem_moves_sub.mp hm
    obtain ⟨y, hy⟩ := exists_pending_of_consume hV hr hb hp hurc hs
    exact .inr ⟨_, rest, y, rfl, List.suffix_refl _, hy _ rfl, hL⟩
  | del =>
    obtain ⟨hb, u, l, hurc, hs, rfl⟩ := mem_moves_del.mp hm
    obtain ⟨y, hy⟩ := exists_pending_of_consume hV hr hb hp hurc hs
    exact .inr ⟨_, rest, y, rfl, List.suffix_refl _, hy _ rfl, hL⟩
  | abs w =>
    obtain ⟨hb, hw, -, -, rfl⟩ := mem_moves_abs.mp hm
    have hne : idIn args w ≠ 0 := idIn_ne_zero hV.unreserved hw
    rw [Move.ilabel, VectorFst.word, if_neg hne] at hL
    rcases rest with _ | ⟨v, rest⟩
    · simp at hL
    · obtain ⟨hid, rfl⟩ := List.cons.inj hL
      obtain ⟨hmove, hpend⟩ := abs_mem_moves hV hr hb (length_urc_lt hu hl hc hb) hp
      obtain rfl := idIn_inj hV.unreserved hw (mem_moves_abs.mp hmove).2.1 hid
      exact .inr ⟨_, rest, x, rfl, List.suffix_cons _ _, hpend, rfl⟩

/-- The arcs that are taken lead from position to position. -/
theorem readArc_mem_positions (h : contextualEdit W ord args = some M) (hV : args.Valid)
    (hu : args.sizes.ulcMax ≤ 1) (hl : args.sizes.llcMax ≤ 1) (hr : 1 ≤ args.sizes.urcMax)
    {u : List Sym} {s t : ℕ × List ℤ} (hs : s ∈ positions ord args u) {e : ℕ}
    (hst : M.fst.readArc s e = some t) :
    t ∈ positions ord args u := by
  obtain ⟨r, L'⟩ := t
  rcases hs with rfl | ⟨c, rest, x, hc, hsuffix, hp, rfl⟩
  · obtain ⟨a, ha, -⟩ := VectorFst.readArc_eq_some_iff.mp hst
    exact absurd ha (endsFinally h 0 ((final?_isSome_iff h).mpr rfl) e a)
  · obtain ⟨a, ha, rfl, hL⟩ := VectorFst.readArc_eq_some_iff.mp hst
    obtain ⟨m, t, hm, rfl⟩ := arc_isMove h hc ha
    rcases hp.read hV hu hl hr hc hm hL with ⟨rfl, rfl⟩ | ⟨d, rest', y, rfl, hrest, hy, rfl⟩
    · exact .inl rfl
    · exact .inr ⟨d, rest', y, target_isKey (.inl hu) hc hm, hrest.trans hsuffix, hy, rfl⟩

/-- At a position nothing has been lost. -/
theorem mass_position (h : contextualEdit W ord args = some M) (hV : args.Valid)
    (hne : args.V2 ≠ []) (hu : args.sizes.ulcMax ≤ 1) (hl : args.sizes.llcMax ≤ 1)
    (hr : 1 ≤ args.sizes.urcMax) (hpr : M.fst.Normalised pr) {u : List Sym} {s : ℕ × List ℤ}
    (hs : s ∈ positions ord args u) (n : ℕ) :
    mass M.fst pr s.1 s.2 n = 1 := by
  rcases hs with rfl | ⟨c, rest, x, hc, -, hp, rfl⟩
  · exact mass_final h n
  · exact mass_state h hV hne hu hl hr hpr n hc hp

theorem conserving_positions (h : contextualEdit W ord args = some M) (hV : args.Valid)
    (hne : args.V2 ≠ []) (hu : args.sizes.ulcMax ≤ 1) (hl : args.sizes.llcMax ≤ 1)
    (hr : 1 ≤ args.sizes.urcMax) (hpr : M.fst.Normalised pr) (u : List Sym) :
    (M.fst.reader pr (endsFinally h)).Conserving (positions ord args u) := by
  constructor
  · rintro s hs t ⟨e, -, he⟩
    exact readArc_mem_positions h hV hu hl hr hs he
  · intro s hs hlive
    have hq : s.1 ≠ 0 := by
      rcases hs with rfl | ⟨c, rest, x, hc, -, -, rfl⟩
      · exact absurd ⟨(final?_isSome_iff h).mpr rfl, rfl⟩ hlive
      · have hpos := stateNum_pos ord hc
        exact Nat.ne_of_gt hpos
    -- the mass after one step is the mass of the next positions
    rw [← mass_position h hV hne hu hl hr hpr hs 1, mass_succ hq]
    refine tsum_congr fun e => congrArg (pr e * ·) ?_
    show (M.fst.readArc s e).elim 0 1 = _
    rcases hnext : M.fst.readArc s e with _ | ⟨r, L'⟩
    · refine (arcMass_eq_zero 0 fun a L' ha hL => ?_).symm
      rw [VectorFst.readArc_eq_some_iff.mpr ⟨a, ha, rfl, hL⟩] at hnext
      contradiction
    · obtain ⟨a, ha, rfl, hL⟩ := VectorFst.readArc_eq_some_iff.mp hnext
      rw [arcMass_eq ha hL]
      exact (mass_position h hV hne hu hl hr hpr
        (readArc_mem_positions h hV hu hl hr hs hnext) 0).symm

/-- From every position some path leads to the end: delete the rest of the upper string. -/
theorem exists_reading (h : contextualEdit W ord args = some M) (hV : args.Valid)
    (hu : args.sizes.ulcMax ≤ 1) (hl : args.sizes.llcMax ≤ 1) (hr : 1 ≤ args.sizes.urcMax)
    {u : List Sym} {s : ℕ × List ℤ} (hs : s ∈ positions ord args u) :
    (M.fst.readings s.1 s.2).Nonempty := by
  rcases hs with rfl | ⟨c, rest, x, hc, -, hp, rfl⟩
  · exact ⟨[], ⟨0, rfl, (final?_isSome_iff h).mpr rfl⟩, rfl⟩
  · obtain ⟨ms, hrun, rfl, -⟩ :=
      exists_run hV hu hl hr c rest x (List.replicate x.length .del) hc hp
      (by simp [consumptions, List.countP_replicate, Edit.consumes])
      (by simp [spelled, List.filterMap_replicate, Edit.symbol?])
    obtain ⟨p, htr⟩ := exists_traces_of_run h (.inl hu) hrun hc
    exact ⟨p, ⟨0, htr.walk, (final?_isSome_iff h).mpr rfl⟩,
      (htr.labels h hV.unreserved (.inl hu) hc).1⟩

theorem start_mem_positions {x : List Sym} (hx : ∀ s ∈ x, s ∈ args.V1) :
    (stateNum ord args (startKey args.sizes), (x ++ padding args).map (idIn args)) ∈
      positions ord args (x ++ padding args) :=
  .inr ⟨_, _, x, startKey_isKey, List.suffix_refl _, pending_start.mpr ⟨hx, rfl⟩, rfl⟩

/-! ### The end of a reading -/

theorem mem_padded {x : List Sym} (hx : ∀ s ∈ x, s ∈ args.V1) :
    ∀ v ∈ x ++ padding args, v ∈ args.V1 ∨ v = stopStartChar := by
  intro v hv
  rcases List.mem_append.mp hv with hv | hv
  · exact .inl (hx v hv)
  · exact .inr (List.eq_of_mem_replicate hv)

theorem reads_eq_readings (h : contextualEdit W ord args = some M) (hV : args.Valid) {x : List Sym}
    (hx : ∀ s ∈ x, s ∈ args.V1) : M.reads args (x ++ padding args) =
      M.fst.readings (stateNum ord args (startKey args.sizes))
        ((x ++ padding args).map (idIn args)) := by
  rw [VectorFst.readings_start (machine_start h)]
  ext p
  exact and_congr_right fun _ => spells_iff hV (mem_padded hx)

/-- No trap: what the paths have read so far with positive probability can be completed with
positive probability. -/
def Machine.NoTrap (args : Args) (M : Machine W) (pr : ℕ → ℝ≥0∞) (u : List Sym) : Prop :=
  ∀ p q₀ q, M.fst.start = some q₀ → walk M.fst.ends q₀ p = some q →
    (∃ v, v <+: u ∧ Spells args.symsIn (M.fst.istring p) v) → pathWeight pr p ≠ 0 →
      ∃ p', p ++ p' ∈ M.reads args u ∧ pathWeight pr (p ++ p') ≠ 0

theorem noTrap_iff (h : contextualEdit W ord args = some M) (hV : args.Valid) {x : List Sym}
    (hx : ∀ s ∈ x, s ∈ args.V1) : M.NoTrap args pr (x ++ padding args) ↔
      ∀ t, Relation.ReflTransGen (M.fst.reader pr (endsFinally h)).Moves
        (stateNum ord args (startKey args.sizes), (x ++ padding args).map (idIn args)) t →
          ∃ p, (M.fst.reader pr (endsFinally h)).haltWeight p t ≠ 0 := by
  have hspells {p : List ℕ} {L : List ℤ}
      (hp : M.fst.istring p ++ L = (x ++ padding args).map (idIn args)) :
      ∃ v, v <+: x ++ padding args ∧ Spells args.symsIn (M.fst.istring p) v := by
    have hpre : M.fst.istring p <+: (x ++ padding args).map (idIn args) := ⟨L, hp⟩
    refine ⟨_, List.take_prefix (M.fst.istring p).length _, ?_⟩
    rw [spells_iff hV fun v hv => mem_padded hx v (List.mem_of_mem_take hv), List.map_take]
    exact List.prefix_iff_eq_take.mp hpre
  -- a reading from a reached position completes the path that leads there
  have hcomplete {p p' : List ℕ} {q : ℕ} {L : List ℤ}
      (hwalk : walk M.fst.ends (stateNum ord args (startKey args.sizes)) p = some q)
      (hL : M.fst.istring p ++ L = (x ++ padding args).map (idIn args)) :
      p ++ p' ∈ M.reads args (x ++ padding args) ↔ p' ∈ M.fst.readings q L := by
    rw [reads_eq_readings h hV hx]
    constructor
    · rintro ⟨⟨r, hr, hfinal⟩, hstring⟩
      rw [walk_append, hwalk, Option.bind_some] at hr
      rw [VectorFst.istring_append, ← hL] at hstring
      exact ⟨⟨r, hr, hfinal⟩, List.append_cancel_left hstring⟩
    · rintro ⟨⟨r, hr, hfinal⟩, rfl⟩
      refine ⟨⟨r, ?_, hfinal⟩, ?_⟩
      · rw [walk_append, hwalk, Option.bind_some, hr]
      · rw [VectorFst.istring_append, hL]
  constructor
  · rintro hno ⟨q, L⟩ hreach
    obtain ⟨p, hwalk, hL, hw⟩ := VectorFst.reaches_reader_iff.mp hreach
    obtain ⟨p', hmem, hw'⟩ := hno p _ q (machine_start h) hwalk (hspells hL) hw
    refine ⟨p', ?_⟩
    rw [VectorFst.haltWeight_reader, Set.indicator_of_mem ((hcomplete hwalk hL).mp hmem)]
    rw [pathWeight_append] at hw'
    exact right_ne_zero_of_mul hw'
  · rintro hcan p q₀ q hstart hwalk ⟨v, ⟨v', hv⟩, hspell⟩ hw
    obtain rfl := Option.some.inj ((machine_start h).symm.trans hstart)
    have hpre : v <+: x ++ padding args := ⟨v', hv⟩
    rw [spells_iff hV fun s hs => mem_padded hx s (hpre.subset hs)] at hspell
    have hL : M.fst.istring p ++ v'.map (idIn args) = (x ++ padding args).map (idIn args) := by
      rw [hspell, ← List.map_append, hv]
    obtain ⟨p', hp'⟩ := hcan _ (VectorFst.reaches_reader_iff.mpr ⟨p, hwalk, hL, hw⟩)
    rw [VectorFst.haltWeight_reader] at hp'
    have hmem := Set.mem_of_indicator_ne_zero hp'
    rw [Set.indicator_of_mem hmem] at hp'
    refine ⟨p', (hcomplete hwalk hL).mpr hmem, ?_⟩
    rw [pathWeight_append]
    exact mul_ne_zero hw hp'

theorem totalWeight_reads_of_pos (h : contextualEdit W ord args = some M) (hV : args.Valid)
    (hne : args.V2 ≠ []) (hu : args.sizes.ulcMax ≤ 1) (hl : args.sizes.llcMax ≤ 1)
    (hr : 1 ≤ args.sizes.urcMax) (hpr : M.fst.Normalised pr) (hpos : ∀ e < M.fst.numArcs, pr e ≠ 0)
    {x : List Sym} (hx : ∀ s ∈ x, s ∈ args.V1) :
    totalWeight pr (M.reads args (x ++ padding args)) = 1 := by
  rw [reads_eq_readings h hV hx, ← VectorFst.halting_reader (h := endsFinally h)]
  refine (conserving_positions h hV hne hu hl hr hpr _).halting_eq_one_of_finite
    (positions_finite ord args _) (fun s hs => ?_) (start_mem_positions hx)
  obtain ⟨p, hp⟩ := exists_reading h hV hu hl hr hs
  obtain ⟨⟨r, hwalk, -⟩, -⟩ := id hp
  refine ⟨p, ?_⟩
  rw [VectorFst.haltWeight_reader, Set.indicator_of_mem hp, pathWeight]
  refine List.prod_ne_zero fun hzero => ?_
  obtain ⟨e, he, hzero⟩ := List.mem_map.mp hzero
  obtain ⟨q, a, ha⟩ := VectorFst.exists_arc_of_walk hwalk he
  exact hpos e (VectorFst.lt_numArcs_of_arc? ha) hzero

/-- The accepting paths that read a padded upper string have the whole mass exactly if there
is no trap, and there is none if no arc has probability 0. -/
theorem terminates_iff (W : Type*) [One W] (ord : HashOrder) (args : Args) (hV : args.Valid)
    (hne : args.V2 ≠ []) (hu : args.sizes.ulcMax ≤ 1) (hl : args.sizes.llcMax ≤ 1)
    (hr : 1 ≤ args.sizes.urcMax) : ∃ M, contextualEdit W ord args = some M ∧
      ∀ pr : ℕ → ℝ≥0∞, M.fst.Normalised pr → ∀ x : List Sym, (∀ s ∈ x, s ∈ args.V1) →
        (totalWeight pr (M.reads args (x ++ padding args)) = 1 ↔
          M.NoTrap args pr (x ++ padding args)) ∧
        ((∀ e < M.fst.numArcs, pr e ≠ 0) →
          totalWeight pr (M.reads args (x ++ padding args)) = 1) := by
  obtain ⟨M, h⟩ := exists_contextualEdit W ord (.inl hu : Completes args)
  refine ⟨M, h, fun pr hpr x hx =>
    ⟨?_, fun hpos => totalWeight_reads_of_pos h hV hne hu hl hr hpr hpos hx⟩⟩
  rw [noTrap_iff h hV hx,
    reads_eq_readings h hV hx, ← VectorFst.halting_reader (h := endsFinally h)]
  exact (conserving_positions h hV hne hu hl hr hpr _).halting_eq_one_iff
    (positions_finite ord args _)
    (start_mem_positions hx)

theorem uniform_ne_zero {V : Type*} (F : VectorFst V) {e : ℕ} (he : e < F.numArcs) :
    uniform F e ≠ 0 := by
  obtain ⟨q, a, ha⟩ := VectorFst.exists_arc? he
  rw [uniform, ha]
  have hfin : (F.group q a.ilabel).Finite := F.group_finite q a.ilabel
  simpa using hfin

theorem terminates_one_two_one :
    ∃ M, contextualEdit ℕ insertionOrder (smallArgs ⟨1, 2, 1⟩) = some M ∧
      totalWeight (uniform M.fst) (M.reads (smallArgs ⟨1, 2, 1⟩) ["a", "#", "#"]) = 1 := by
  obtain ⟨M, h, hmass⟩ := terminates_iff ℕ insertionOrder (smallArgs ⟨1, 2, 1⟩)
    (smallArgs_valid _) (by decide) le_rfl le_rfl (by decide)
  exact ⟨M, h, (hmass _ (uniform_normalised _) ["a"] (by decide)).2 fun _ => uniform_ne_zero _⟩

end StochasticEdit.Generator
